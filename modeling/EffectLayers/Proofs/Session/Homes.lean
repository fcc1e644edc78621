import EffectLayers.Proofs.Control.Grid
import EffectLayers.Proofs.Layer.Stack
import EffectLayers.Proofs.Program.Held
import EffectLayers.Proofs.Session.Made

/-!
# The homes of brands

What a session adopts is written down step by step: what its steps say themselves, what is
completed or built, and the members of grids. The homes that the catalog knows are that history.

## Main definitions

* `Seed.adoptions`, `Seed.buildAdoptions`: what completing and building a seed adopt.
* `Session.adoptions`, `Session.history`: what a step adopts, and all steps.
* `Session.after`: the session after all steps.
* `Assembly.Silent`: steps of assembling that adopt nothing.

## Main statements

* `Session.homes_step`, `Session.homes_after`: what one step adds to the homes of brands, and all of
  them.
-/

namespace EffectLayers

/-- A brand by its number, and a definition that adopted it. -/
abbrev Adoption := BrandId × DefId

/-! ## Adoptions -/

/-- The brand of a definition, adopted by it. -/
def Definition.adoption? (d : Definition) : Option Adoption :=
  d.carrierBrand?.map fun brand => (brand.id, d.id)

namespace Seed

/-- What is completed adopts the brand that the definition had adopted that the seed extends. -/
def adoptions (s : Seed) (c : Catalog) : List Adoption :=
  match s.reinstall, s.complete c with
  | some ⟨_, some brand⟩, (.ok d, _) => [(brand.id, d.id)]
  | _, _ => []

/-- What is built then adopts the brand of its own carrier, unless the options say otherwise. -/
def buildAdoptions (s : Seed) (o : Options) (c : Catalog) : List Adoption :=
  s.adoptions c ++
    match o.carrier, o.dispatch, s.build o c with
    | some _, .home, (.ok d, _) => d.adoption?.toList
    | _, _, _ => []

end Seed

namespace Assembly

variable {α β : Type 1}

/-- The step adopts nothing. -/
def Silent (m : Assembly α) : Prop := ∀ c, (m c).2.homes = c.homes

namespace Silent

theorem pure (a : α) : Silent (Pure.pure a) := fun _ => rfl

theorem refuse (e : ConfigError) : Silent (Assembly.refuse e : Assembly α) := fun _ => rfl

theorem bind {m : Assembly α} {f : α → Assembly β} (hm : Silent m) (hf : ∀ a, Silent (f a)) :
    Silent (m >>= f) := by
  intro c
  have hhomes := hm c
  rcases h : m c with ⟨e | a, c'⟩ <;> rw [h] at hhomes
  · rw [bind_of_error f h]
    exact hhomes
  · rw [bind_of_ok f h, hf a c']
    exact hhomes

theorem readingHomes {f : (BrandId → Option DefId) → Assembly α} (h : ∀ home, Silent (f home)) :
    Silent (Assembly.readingHomes f) :=
  fun c => h c.home c

theorem assembleWith (s : DefId → Seed) : Silent (Seed.assembleWith s) := by
  intro c
  unfold Seed.assembleWith
  split <;> rfl

end Silent

end Assembly

section

variable {inner d : Definition} {brand : Option Brand} {c c' : Catalog}

namespace Definition

theorem silent_withContext (d : Definition) (mode : ContextMode) :
    (d.withContext mode).Silent := by
  cases mode with
  | off => exact .pure d
  | runOnly | full => exact .assembleWith _

theorem silent_withCoercion (d : Definition) : d.withCoercion.Silent := by
  unfold withCoercion
  split
  · exact .assembleWith _
  · exact .refuse _

theorem silent_carried (d : Definition) (brand : Option Brand) : (d.carried brand).Silent := by
  cases brand with
  | none => exact .pure d
  | some brand => exact .assembleWith _

theorem silent_coercing (d : Definition) (coercion : Bool) : (d.coercing coercion).Silent := by
  cases coercion with
  | false => exact .pure d
  | true => exact d.silent_withCoercion

theorem silent_escaping (d : Definition) (escape : Bool) : (d.escaping escape).Silent := by
  cases escape with
  | false => exact .pure d
  | true => exact .assembleWith _

/-- The layers from the carrier on adopt the carrier's brand, or nothing. -/
theorem homes_withLayers (d : Definition) (o : Options) (brand : Option Brand) (c : Catalog) :
    (d.withLayers o brand c).2.homes =
      (match brand, o.dispatch, d.withLayers o brand c with
        | some b, .home, (.ok e, _) => [(b.id, e.id)]
        | _, _, _ => []) ++ c.homes := by
  let stacked : Assembly Definition := d.carried brand >>= fun d =>
    d.coercing o.coercion >>= fun d => d.withContext o.context
  have hstacked : stacked.Silent := (d.silent_carried brand).bind fun d =>
    (d.silent_coercing o.coercion).bind fun d => d.silent_withContext o.context
  have heq : d.withLayers o brand c = (stacked >>= fun d => d.adopting brand o.dispatch) c := by
    simp only [withLayers_eq, stacked, bind_assoc]
  rw [heq]
  have hhomes := hstacked c
  rcases h : stacked c with ⟨e | e, c₁⟩ <;> rw [h] at hhomes
  · rw [Assembly.bind_of_error _ h, hhomes]
    cases brand <;> cases o.dispatch <;> rfl
  · rw [Assembly.bind_of_ok _ h, ← hhomes]
    cases brand <;> cases o.dispatch <;> rfl

end Definition

namespace Seed

variable {s : Seed}

/-- A seed that does not extend a context layer adopts nothing when it is completed. -/
theorem adoptions_of_reinstall (h : s.reinstall = none) (c : Catalog) : s.adoptions c = [] := by
  simp only [adoptions, h]

theorem homes_complete (s : Seed) (c : Catalog) :
    (s.complete c).2.homes = (s.adoptions c).reverse ++ c.homes := by
  have hassembled : s.assemble.Silent := .assembleWith fun _ => s
  have hhomes := hassembled c
  cases hreinstall : s.reinstall with
  | none =>
    rw [adoptions_of_reinstall hreinstall]
    simp only [complete, hreinstall]
    exact hassembled.bind (fun d => .pure d) c
  | some r =>
    obtain ⟨mode, brand⟩ := r
    let stacked : Assembly Definition := s.assemble >>= fun d => d.withContext mode
    have hstacked : stacked.Silent := hassembled.bind fun d => d.silent_withContext mode
    have hcomplete : s.complete = stacked >>= fun d => d.adopting brand .home := by
      simp only [complete, hreinstall, stacked, bind_assoc]
      cases brand <;> rfl
    simp only [adoptions, hreinstall, hcomplete]
    have hhomes := hstacked c
    rcases h : stacked c with ⟨e | d, c₁⟩ <;> rw [h] at hhomes
    · rw [Assembly.bind_of_error _ h, hhomes]
      cases brand <;> rfl
    · rw [Assembly.bind_of_ok _ h, ← hhomes]
      cases brand <;> rfl

theorem homes_build (s : Seed) (o : Options) (c : Catalog) :
    (s.build o c).2.homes = (s.buildAdoptions o c).reverse ++ c.homes := by
  let escaped : Assembly Definition := s.complete >>= fun d => d.escaping o.escape
  let layered (d : Definition) : Assembly Definition :=
    o.carrier.elim (d.withLayers o none) fun name =>
      Assembly.withBrand name fun brand => d.withLayers o (some brand)
  have hescaped : (escaped c).2.homes = (s.adoptions c).reverse ++ c.homes := by
    rw [← homes_complete]
    rcases h : s.complete c with ⟨e | d, c₁⟩
    · simp only [escaped, Assembly.bind_of_error _ h]
    · simp only [escaped, Assembly.bind_of_ok _ h]
      exact d.silent_escaping o.escape c₁
  have hbuild : s.build o = escaped >>= layered := by
    rw [build_eq, bind_assoc]
    simp only [layered]
    cases o.carrier <;> rfl
  have hlayered (d : Definition) (c : Catalog) : (layered d c).2.homes =
      (match o.carrier, o.dispatch, layered d c with
        | some _, .home, (.ok e, _) => e.adoption?.toList
        | _, _, _ => []).reverse ++ c.homes := by
    simp only [layered]
    cases o.carrier with
    | none => exact d.homes_withLayers o none c
    | some name =>
      refine (d.homes_withLayers o (some ⟨c.nextBrand, name⟩) _).trans ?_
      simp only [Option.elim, Assembly.withBrand]
      rcases h : d.withLayers o (some ⟨c.nextBrand, name⟩)
        { c with nextBrand := c.nextBrand + 1 } with ⟨e | e, c'⟩
      · cases o.dispatch <;> rfl
      · have hbrand := (Definition.wraps_of_withLayers h).1
        rw [Option.some_or] at hbrand
        cases o.dispatch <;> simp [Definition.adoption?, hbrand]
  simp only [buildAdoptions, hbuild, List.reverse_append, List.append_assoc]
  rcases h : escaped c with ⟨e | d, c₁⟩ <;> rw [h] at hescaped
  · rw [Assembly.bind_of_error _ h, hescaped]
    cases o.carrier <;> cases o.dispatch <;> rfl
  · rw [Assembly.bind_of_ok _ h, hlayered, hescaped]

/-- No brand is carried by what the seed makes, apart from those of layers that are added. -/
structure Unbranded (s : Seed) : Prop where
  brand : s.brand = none
  base : ∀ b, s.base = some b → b.carrierBrand? = none

theorem Unbranded.carrierBrand? (h : s.Unbranded) {id : DefId} {d : Definition}
    (hd : s.definition? id = some d) : d.carrierBrand? = none := by
  obtain ⟨lift, -, rfl⟩ := Option.map_eq_some_iff.mp hd
  rw [Definition.carrierBrand?.eq_def]
  simp only [h.brand]
  cases hbase : s.base with
  | none => rfl
  | some b => exact h.base b hbase

/-- What is built with methods looking for it adopts the brand that it carries, if any. -/
theorem buildAdoptions_of_home (hs : s.Unbranded) (hreinstall : s.reinstall = none)
    {o : Options} (ho : o.dispatch = .home) {c c' : Catalog} {d : Definition}
    (h : s.build o c = (.ok d, c')) : s.buildAdoptions o c = d.adoption?.toList := by
  simp only [buildAdoptions, adoptions_of_reinstall hreinstall, ho, h, List.nil_append]
  cases hcarrier : o.carrier with
  | some name => rfl
  | none =>
    rw [build_eq] at h
    obtain ⟨d₀, c₀, hcomplete, h⟩ := Assembly.bind_eq_ok.mp h
    obtain ⟨e, c₁, hescaping, h⟩ := Assembly.bind_eq_ok.mp h
    simp only [hcarrier] at h
    obtain ⟨i, hd₀⟩ := definition?_of_complete hreinstall hcomplete
    have he : e.carrierBrand? = none := by
      rw [← hs.carrierBrand? hd₀]
      cases hescape : o.escape <;> rw [hescape] at hescaping
      · cases hescaping
        rfl
      · obtain ⟨j, hd⟩ := Definition.definition?_of_withEscapeControl hescaping
        have hbase : (Escape.seed d₀).base = some d₀ ∧ (Escape.seed d₀).brand = none := by
          rw [Escape.seed]
          split <;> exact ⟨rfl, rfl⟩
        rw [carrierBrand?_of_definition? hd hbase.1, hbase.2]
        rfl
    have hbrand := (Definition.wraps_of_withLayers h).1
    rw [he] at hbrand
    simp only [Definition.adoption?, hbrand]
    rfl

end Seed

end

namespace Effects

theorem homes_buildAll {s : Seed} (hs : s.Unbranded) (hreinstall : s.reinstall = none)
    {os : List Options} (hos : ∀ o ∈ os, o.dispatch = .home) {c c' : Catalog}
    {ds : List Definition} (h : buildAll s os c = (.ok ds, c')) :
    c'.homes = (ds.filterMap Definition.adoption?).reverse ++ c.homes := by
  induction os generalizing c ds with
  | nil =>
    cases h
    rfl
  | cons o os ih =>
    obtain ⟨d, c₁, hbuild, h⟩ := Assembly.bind_eq_ok.mp h
    obtain ⟨others, c₂, hothers, h⟩ := Assembly.bind_eq_ok.mp h
    cases h
    obtain ⟨ho, hos⟩ := List.forall_mem_cons.mp hos
    have hhomes := s.homes_build o c
    rw [hbuild, Seed.buildAdoptions_of_home hs hreinstall ho hbuild] at hhomes
    rw [ih hos hothers, hhomes]
    cases hd : d.adoption? <;> simp [hd]

theorem dispatch_of_mem_gridOptions {escape : Bool} {o : Options} (h : o ∈ gridOptions escape) :
    o.dispatch = .home := by
  simp only [gridOptions, List.mem_flatMap, List.mem_map] at h
  obtain ⟨-, -, -, -, -, -, rfl⟩ := h
  rfl

theorem exists_looping (c : Catalog) : ∃ s c', looping c = (.ok s, c') ∧
    c'.homes = c.homes ∧ s.reinstall = none ∧ s.Unbranded :=
  ⟨_, _, rfl, rfl, rfl, rfl, by rintro b ⟨⟩; rfl⟩

/-- Every definition of the grid with a carrier adopts its brand. -/
theorem homes_grid (c : Catalog) : ∃ ds c', grid c = (.ok ds, c') ∧
    c'.homes = (ds.filterMap Definition.adoption?).reverse ++ c.homes := by
  obtain ⟨ds, c', hgrid, -, -⟩ := yields_grid (c := c)
  refine ⟨ds, c', hgrid, ?_⟩
  obtain ⟨s, c₀, hlooping, hhomes, hreinstall, hs⟩ := exists_looping c
  rw [grid, Assembly.bind_of_ok _ hlooping] at hgrid
  obtain ⟨as, c₁, has, hgrid⟩ := Assembly.bind_eq_ok.mp hgrid
  obtain ⟨bs, c₂, hbs, hgrid⟩ := Assembly.bind_eq_ok.mp hgrid
  obtain ⟨ls, c₃, hls, hgrid⟩ := Assembly.bind_eq_ok.mp hgrid
  cases hgrid
  have hos {escape : Bool} (o : Options) (h : o ∈ gridOptions escape) : o.dispatch = .home :=
    dispatch_of_mem_gridOptions h
  have hidentity : identity.Unbranded := ⟨rfl, by rintro b ⟨⟩⟩
  have heither : either.Unbranded := ⟨rfl, by rintro b ⟨⟩⟩
  rw [homes_buildAll hs hreinstall hos hls, homes_buildAll heither rfl hos hbs,
    homes_buildAll hidentity rfl hos has, hhomes]
  simp

end Effects

/-! ## Sessions -/

namespace Session

/-- What is adopted from a seed on, once it was made. -/
def seedAdoptions (s : Session) (e : SeedExpr) (rest : Seed → Catalog → List Adoption) :
    List Adoption :=
  match s.seed? e with
  | some assembly =>
    match assembly s.catalog with
    | (.ok seed, c) => rest seed c
    | (.error _, _) => []
  | none => []

/-- What a recipe adopts. -/
def recipeAdoptions (s : Session) : Recipe → List Adoption
  | .options e o => s.seedAdoptions e fun seed c => seed.buildAdoptions o c
  | .toml e text => s.seedAdoptions e fun seed c =>
    match Options.ofToml? Toml.read? text with
    | some o => seed.buildAdoptions o c
    | none => []
  | .layers e _ => s.seedAdoptions e Seed.adoptions
  | .on .. => []

/-- What a step adopts, in order: what it says itself, what it completes or builds, and every member
of a grid with a carrier. -/
def adoptions (s : Session) : Step → List Adoption
  | .adopt name definition =>
    match s.world.brands.lookup name, s.definition? definition with
    | some brand, some d => [(brand.id, d.id)]
    | _, _ => []
  | .define _ r => s.recipeAdoptions r
  | .grid _ =>
    match Effects.grid s.catalog with
    | (.ok ds, _) => ds.filterMap Definition.adoption?
    | (.error _, _) => []
  | _ => []

/-- What all steps adopt, in order. -/
def history : List Step → Session → List Adoption
  | [], _ => []
  | t :: ts, s => s.adoptions t ++
    match s.step t with
    | some (_, s) => history ts s
    | none => []

/-- The session after all steps. -/
def after (ts : List Step) (s : Session) : Option Session :=
  (run ts s).map fun rs => (rs.getLast?.map (·.2)).getD s

variable {s s' : Session} {t : Step} {ts us : List Step}

theorem after_cons : after (t :: ts) s = (s.step t).bind fun r => after ts r.2 := by
  unfold after
  rw [run]
  rcases s.step t with _ | ⟨reply, u⟩
  · rfl
  · simp only [Option.bind_some, Option.map_map]
    congr 1
    funext rs
    cases rs <;> simp [List.getLast?_cons]

theorem history_append (h : after ts s = some s') :
    history (ts ++ us) s = history ts s ++ history us s' := by
  induction ts generalizing s with
  | nil =>
    cases h
    rfl
  | cons t ts ih =>
    rw [after_cons] at h
    obtain ⟨⟨reply, u⟩, hstep, hafter⟩ := Option.bind_eq_some_iff.mp h
    simp only [List.cons_append, history, hstep, ih hafter, List.append_assoc]

/-! ## Homes -/

theorem silent_seed? {e : SeedExpr} {assembly : Assembly Seed} (h : s.seed? e = some assembly) :
    assembly.Silent := by
  induction e generalizing assembly with
  | looping =>
    cases h
    exact fun c => (Effects.exists_looping c).elim fun _ ⟨_, hlooping, hhomes, _⟩ => by
      rw [hlooping]
      exact hhomes
  | extend name layer =>
    obtain ⟨d, -, rfl⟩ := Option.map_eq_some_iff.mp h
    exact .readingHomes fun home => .pure _
  | override seed op params body ih =>
    obtain ⟨inner, hinner, rfl⟩ := Option.map_eq_some_iff.mp h
    exact (ih hinner).bind fun seed => .pure _
  | _ => exact Option.some.inj h ▸ .pure _

theorem silent_layers? {ls : List Layer} {f : Definition → Assembly Definition}
    (h : s.layers? ls = some f) (d : Definition) : (f d).Silent := by
  induction ls generalizing f d with
  | nil => exact Option.some.inj h ▸ .pure d
  | cons l ls ih =>
    obtain ⟨first, hfirst, hrest⟩ := Option.bind_eq_some_iff.mp h
    obtain ⟨others, hothers, rfl⟩ := Option.map_eq_some_iff.mp hrest
    refine .bind ?_ fun d => ih hothers d
    cases l with
    | escape => exact Option.some.inj hfirst ▸ d.silent_escaping true
    | coercion => exact Option.some.inj hfirst ▸ d.silent_withCoercion
    | carrier name =>
      obtain ⟨brand, -, rfl⟩ := Option.map_eq_some_iff.mp hfirst
      exact d.silent_carried (some brand)
    | context mode => exact Option.some.inj hfirst ▸ d.silent_withContext mode

/-- What follows on a seed adopts what it adopts from that seed on. -/
theorem homes_seed {e : SeedExpr} {assembly : Assembly Seed} (h : s.seed? e = some assembly)
    {α : Type 1} {next : Seed → Assembly α} {rest : Seed → Catalog → List Adoption}
    (hnext : ∀ seed c, (next seed c).2.homes = (rest seed c).reverse ++ c.homes) :
    ((assembly >>= next) s.catalog).2.homes =
      (s.seedAdoptions e rest).reverse ++ s.catalog.homes := by
  have hhomes := silent_seed? h s.catalog
  simp only [seedAdoptions, h]
  rcases ha : assembly s.catalog with ⟨e | seed, c⟩ <;> rw [ha] at hhomes
  · rw [Assembly.bind_of_error _ ha]
    exact hhomes
  · rw [Assembly.bind_of_ok _ ha, hnext, hhomes]

theorem homes_recipe {r : Recipe} {assembly : Assembly Definition}
    (h : s.recipe? r = some assembly) :
    (assembly s.catalog).2.homes = (s.recipeAdoptions r).reverse ++ s.catalog.homes := by
  cases r with
  | options e o =>
    obtain ⟨seed, hseed, rfl⟩ := Option.map_eq_some_iff.mp h
    exact homes_seed hseed fun seed c => seed.homes_build o c
  | toml e text =>
    obtain ⟨seed, hseed, rfl⟩ := Option.map_eq_some_iff.mp h
    refine homes_seed hseed fun seed c => ?_
    cases Options.ofToml? Toml.read? text with
    | some o => exact seed.homes_build o c
    | none => rfl
  | layers e ls =>
    obtain ⟨seed, hseed, hrest⟩ := Option.bind_eq_some_iff.mp h
    obtain ⟨layers, hlayers, rfl⟩ := Option.map_eq_some_iff.mp hrest
    refine homes_seed hseed fun seed c => ?_
    rw [← seed.homes_complete]
    rcases hcomplete : seed.complete c with ⟨e | d, c'⟩
    · rw [Assembly.bind_of_error _ hcomplete]
    · rw [Assembly.bind_of_ok _ hcomplete]
      exact silent_layers? hlayers d c'
  | on name ls =>
    obtain ⟨d, -, hrest⟩ := Option.bind_eq_some_iff.mp h
    obtain ⟨layers, hlayers, rfl⟩ := Option.map_eq_some_iff.mp hrest
    exact silent_layers? hlayers d s.catalog

/-- What one step adds to the homes of brands is what it adopts. -/
theorem homes_step {r : Reply × Session} (hr : s.step t = some r) :
    r.2.catalog.homes = (s.adoptions t).reverse ++ s.catalog.homes := by
  cases t with
  | define name recipe =>
    obtain ⟨assembly, ha, rfl⟩ := Option.map_eq_some_iff.mp hr
    rw [catalog_assembling fun _ _ => rfl]
    exact homes_recipe ha
  | showSeed e =>
    obtain ⟨assembly, ha, rfl⟩ := Option.map_eq_some_iff.mp hr
    rw [catalog_assembling fun _ _ => rfl]
    exact silent_seed? ha s.catalog
  | freshBrand name title =>
    obtain rfl := Option.some.inj hr
    rfl
  | brandOf name definition =>
    obtain ⟨brand, -, rfl⟩ := Option.map_eq_some_iff.mp hr
    rfl
  | adopt name definition =>
    obtain ⟨brand, hbrand, hrest⟩ := Option.bind_eq_some_iff.mp hr
    obtain ⟨d, hd, rfl⟩ := Option.map_eq_some_iff.mp hrest
    simp only [adoptions, hbrand, hd]
    rfl
  | drop name =>
    simp only [Session.step] at hr
    split at hr
    · obtain rfl := Option.some.inj hr
      rfl
    · cases hr
  | readOptions text =>
    simp only [Session.step] at hr
    split at hr <;> exact Option.some.inj hr ▸ rfl
  | eval e x =>
    obtain ⟨⟨result, a, u⟩, hevaluate, rfl⟩ := Option.map_eq_some_iff.mp hr
    have hcatalog : u.catalog.homes = s.catalog.homes :=
      congrArg Catalog.homes (catalog_evaluate hevaluate)
    cases result with
    | error e => exact hcatalog
    | ok v => cases x <;> exact hcatalog
  | grid e =>
    obtain ⟨ds, c, hgrid, hhomes⟩ := Effects.homes_grid s.catalog
    simp only [Session.step, hgrid] at hr
    obtain ⟨⟨answers, u⟩, heach, rfl⟩ := Option.map_eq_some_iff.mp hr
    simp only [adoptions, hgrid, catalog_onEach heach, hhomes]

/-- What all steps add to the homes of brands is what they adopt. -/
theorem homes_after (h : after ts s = some s') :
    s'.catalog.homes = (history ts s).reverse ++ s.catalog.homes := by
  induction ts generalizing s with
  | nil =>
    cases h
    rfl
  | cons t ts ih =>
    rw [after_cons] at h
    obtain ⟨⟨reply, u⟩, hstep, hafter⟩ := Option.bind_eq_some_iff.mp h
    rw [ih hafter, homes_step hstep]
    simp only [history, hstep, List.reverse_append, List.append_assoc]

end Session

end EffectLayers
