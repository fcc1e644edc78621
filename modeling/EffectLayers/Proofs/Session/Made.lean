import EffectLayers.Proofs.Assembly
import EffectLayers.Session.Basic

/-!
# What holds of all that a session makes

A property of definitions that every single way of making them keeps holds of all definitions of a
session, whatever its steps are.

## Main definitions

* `Definition.All`: a property of a definition and of all that it is layered on.
* `Invariant`: a property of definitions, with the properties of seeds and operations that it comes
  from.
* `Invariant.Holds`, `Invariant.Keeps`: what holds of a catalog, and steps of assembling that keep
  it.
* `SeedExpr.Bodies`, `Step.Bodies`: what holds of the expressions that stand in for operations.

## Main statements

* `Invariant.keeps_build`, `Invariant.keeps_recipe?`: what is made has the property.
* `Session.preserved_run`: what every step of a session preserves holds after each of them.
* `Invariant.holds_step`, `Invariant.holds_run`: what one step of a session preserves, and all of
  them.
-/

namespace EffectLayers

/-- A property holds of a definition and of all that it is layered on. -/
inductive Definition.All (P : Definition → Prop) : Definition → Prop where
  | intro {d : Definition} (self : P d) (base : ∀ b, d.base = some b → All P b) : All P d

namespace Definition.All

variable {P : Definition → Prop} {d : Definition}

theorem self (h : d.All P) : P d := h.casesOn fun self _ => self

theorem base (h : d.All P) {b : Definition} (hb : d.base = some b) : b.All P :=
  h.casesOn (fun _ base => base b) hb

end Definition.All

/-- A property of definitions that every way of making them keeps, with the one of seeds and the one
of operations that it comes from. Expressions that stand in for operations are those of `body`. -/
structure Invariant where
  definition : Definition → Prop
  seed : Seed → Prop
  operation : (op : Operation) → Signature op → Prop
  body : Expr → Prop
  made {s : Seed} {id : DefId} {d : Definition} : seed s → s.definition? id = some d → definition d
  set {s : Seed} {op : Operation} {f : Signature op} : seed s → operation op f → seed (s.set op f)
  override {e : Expr} (env : Env) (op : Operation) (params : List String) :
    body e → operation op (Session.operationOf env op params e)
  escape {d : Definition} : definition d → seed (Escape.seed d)
  carrier {d : Definition} (brand : Brand) : definition d → seed ((d.packing brand).seed d)
  coercion {d : Definition} : definition d → seed (Coercion.seed d)
  context {d : Definition} (mode : ContextMode) (self : DefId) :
    definition d → seed (d.contextSeed mode self)
  base {d b : Definition} : definition d → d.base = some b → definition b
  given {d : Definition} (layer : String) (reinstall : Option Reinstall) :
    definition d → seed { Seed.onTop d layer with
      reinstall, ops := fun op => if d.supplies op then some (d.table op) else none }
  nothing (name : Option String) : seed { Seed.unnamed with name }
  identity : seed Effects.identity
  either : seed Effects.either
  results : seed Effects.results
  boxed : seed Effects.boxed
  forPar : operation .forPar fun test body step v =>
    Prog.holding (test.holds ++ body.holds ++ step.holds)
      (.bounded fun n => Effects.forParFrom test body step n v)
  iterate : operation .iterate fun body v => .bounded fun n => Effects.iterateFrom body n v

namespace Invariant

variable (I : Invariant)

/-- Every definition of the catalog has the property. -/
def Holds (c : Catalog) : Prop := ∀ (i : DefId) d, c.get? i = some d → I.definition d

/-- From a catalog of definitions with the property, a step adds only such; its result, if it is not
refused, has a property of its own. -/
def Keeps {α : Type 1} (m : Assembly α) (P : α → Prop) : Prop :=
  ∀ c, I.Holds c → I.Holds (m c).2 ∧ ∀ a, (m c).1 = .ok a → P a

variable {I}

theorem holds_empty : I.Holds .empty := by
  intro i d hd
  simp [Catalog.get?, Catalog.empty] at hd

theorem Holds.add {c : Catalog} (h : I.Holds c) {d : Definition} (hd : I.definition d) :
    I.Holds (c.add d) := by
  intro i e he
  simp only [Catalog.get?, Catalog.add, Array.getElem?_push] at he
  split at he
  · exact Option.some.inj he ▸ hd
  · exact h i e he

/-- Extending a definition starts from what it was given, or what is beneath its context. -/
theorem extend_reinstalling {d : Definition} (h : I.definition d) (home : BrandId → Option DefId)
    (layer : String) (reinstall : Option Reinstall) :
    I.seed { d.extend home layer with reinstall } :=
  match d, h with
  | ⟨_, _, some _, some _, _, _, _⟩, h => extend_reinstalling (I.base h rfl) home layer reinstall
  | ⟨_, _, none, some _, _, _, _⟩, h => I.given layer reinstall h
  | ⟨_, _, some _, none, _, _, _⟩, h => I.given layer reinstall h
  | ⟨_, _, none, none, _, _, _⟩, h => I.given layer reinstall h

theorem extend {d : Definition} (h : I.definition d) (home : BrandId → Option DefId)
    (layer : String) : I.seed (d.extend home layer) :=
  extend_reinstalling h home layer (d.extend home layer).reinstall

/-! ## Assembling -/

namespace Keeps

variable {α β : Type 1} {P : α → Prop} {Q : β → Prop}

theorem pure {a : α} (h : P a) : I.Keeps (Pure.pure a) P :=
  fun _ hc => ⟨hc, fun _ ha => Except.ok.inj ha ▸ h⟩

theorem refuse (e : ConfigError) : I.Keeps (Assembly.refuse e) P := fun _ hc => ⟨hc, nofun⟩

theorem bind {m : Assembly α} {f : α → Assembly β} (hm : I.Keeps m P)
    (hf : ∀ a, P a → I.Keeps (f a) Q) : I.Keeps (m >>= f) Q := by
  intro c hc
  obtain ⟨hc', ha⟩ := hm c hc
  rcases h : m c with ⟨e | a, c'⟩
  · rw [h] at hc'
    simpa only [Bind.bind, h] using ⟨hc', nofun⟩
  · rw [h] at hc' ha
    rw [Assembly.bind_of_ok f h]
    exact hf a (ha a rfl) c' hc'

theorem withBrand {name : String} {f : Brand → Assembly α} (h : ∀ brand, I.Keeps (f brand) P) :
    I.Keeps (Assembly.withBrand name f) P :=
  fun c hc => h ⟨c.nextBrand, name⟩ _ hc

theorem adopting {brand : Brand} {d : Definition} (h : I.definition d) :
    I.Keeps (Assembly.adopting brand d) I.definition :=
  fun _ hc => ⟨hc, fun _ ha => Except.ok.inj ha ▸ h⟩

theorem readingHomes {f : (BrandId → Option DefId) → Assembly α}
    (h : ∀ home, I.Keeps (f home) P) : I.Keeps (Assembly.readingHomes f) P :=
  fun c hc => h c.home c hc

theorem assembleWith {s : DefId → Seed} (h : ∀ id, I.seed (s id)) :
    I.Keeps (Seed.assembleWith s) I.definition := by
  intro c hc
  unfold Seed.assembleWith
  cases hd : (s c.nextId).definition? c.nextId with
  | none => exact ⟨hc, nofun⟩
  | some d =>
    have hmade : I.definition d := I.made (h c.nextId) hd
    exact ⟨hc.add hmade, fun _ ha => Except.ok.inj ha ▸ hmade⟩

end Keeps

section

variable {d : Definition} (h : I.definition d)

include h

theorem keeps_withEscapeControl : I.Keeps d.withEscapeControl I.definition :=
  .assembleWith fun _ => I.escape h

theorem keeps_withCarrier (brand : Brand) : I.Keeps (d.withCarrier brand) I.definition :=
  .assembleWith fun _ => I.carrier brand h

theorem keeps_withCoercion : I.Keeps d.withCoercion I.definition := by
  unfold Definition.withCoercion
  split
  · exact .assembleWith fun _ => I.coercion h
  · exact .refuse _

theorem keeps_withContext (mode : ContextMode) : I.Keeps (d.withContext mode) I.definition := by
  cases mode with
  | off => exact .pure h
  | runOnly => exact .assembleWith fun self => I.context .runOnly self h
  | full => exact .assembleWith fun self => I.context .full self h

theorem keeps_adopting (brand : Option Brand) (dispatch : Dispatch) :
    I.Keeps (d.adopting brand dispatch) I.definition := by
  cases brand with
  | none => cases dispatch <;> exact .pure h
  | some brand =>
    cases dispatch with
    | home => exact .adopting h
    | ambient => exact .pure h

theorem keeps_withLayers (o : Options) (brand : Option Brand) :
    I.Keeps (d.withLayers o brand) I.definition := by
  rw [Definition.withLayers_eq]
  refine .bind (P := I.definition) ?_ fun d hd => .bind (P := I.definition) ?_
    fun d hd => .bind (keeps_withContext hd o.context) fun d hd => ?_
  · cases brand with
    | none => exact .pure h
    | some brand => exact keeps_withCarrier h brand
  · cases o.coercion with
    | false => exact .pure hd
    | true => exact keeps_withCoercion hd
  · exact keeps_adopting hd brand o.dispatch

end

section

variable {s : Seed} (h : I.seed s)

include h

theorem keeps_complete : I.Keeps s.complete I.definition := by
  rw [Seed.complete_eq]
  exact .bind (.assembleWith fun _ => h) fun d hd =>
    .bind (keeps_withContext hd _) fun d hd => keeps_adopting hd _ _

theorem keeps_build (o : Options) : I.Keeps (s.build o) I.definition := by
  rw [Seed.build_eq]
  refine .bind (keeps_complete h) fun d hd => .bind (P := I.definition) ?_ fun d hd => ?_
  · cases o.escape with
    | false => exact .pure hd
    | true => exact keeps_withEscapeControl hd
  · cases o.carrier with
    | none => exact keeps_withLayers hd o none
    | some name => exact .withBrand fun brand => keeps_withLayers hd o (some brand)

theorem keeps_buildAll (os : List Options) :
    I.Keeps (Effects.buildAll s os) fun ds => ∀ d ∈ ds, I.definition d := by
  induction os with
  | nil => exact .pure nofun
  | cons o os ih =>
    exact .bind (keeps_build h o) fun d hd => .bind ih fun ds hds =>
      .pure (List.forall_mem_cons.mpr ⟨hd, hds⟩)

end

theorem keeps_looping : I.Keeps Effects.looping I.seed := by
  refine .bind (keeps_complete I.identity) fun d hd => ?_
  refine .bind (keeps_withEscapeControl hd) fun d hd => .readingHomes fun home => .pure ?_
  exact I.set (I.set (extend hd home "loops") I.forPar) I.iterate

theorem keeps_grid : I.Keeps Effects.grid fun ds => ∀ d ∈ ds, I.definition d := by
  refine .bind keeps_looping fun loops hloops => ?_
  refine .bind (keeps_buildAll I.identity _) fun as has => ?_
  refine .bind (keeps_buildAll I.either _) fun bs hbs => ?_
  refine .bind (keeps_buildAll hloops _) fun ls hls => .pure fun d hd => ?_
  rcases List.mem_append.mp hd with hd | hd
  · exact (List.mem_append.mp hd).elim (has d) (hbs d)
  · exact hls d hd

end Invariant

/-! ## Steps of a session -/

/-- The expressions that stand in for operations of the seed. -/
def SeedExpr.Bodies (ok : Expr → Prop) : SeedExpr → Prop
  | override seed _ _ body => seed.Bodies ok ∧ ok body
  | _ => True

def Recipe.Bodies (ok : Expr → Prop) : Recipe → Prop
  | options s _ | toml s _ | layers s _ => s.Bodies ok
  | on .. => True

def Step.Bodies (ok : Expr → Prop) : Step → Prop
  | define _ r => r.Bodies ok
  | showSeed s => s.Bodies ok
  | _ => True

namespace Invariant

variable {I : Invariant} {s : Session} (h : I.Holds s.catalog)

theorem keeps_layer? {l : Layer} {f : Definition → Assembly Definition} (hf : s.layer? l = some f)
    {d : Definition} (hd : I.definition d) : I.Keeps (f d) I.definition := by
  cases l with
  | escape => exact Option.some.inj hf ▸ keeps_withEscapeControl hd
  | coercion => exact Option.some.inj hf ▸ keeps_withCoercion hd
  | carrier name =>
    obtain ⟨brand, -, rfl⟩ := Option.map_eq_some_iff.mp hf
    exact keeps_withCarrier hd brand
  | context mode => exact Option.some.inj hf ▸ keeps_withContext hd mode

theorem keeps_layers? {ls : List Layer} {f : Definition → Assembly Definition}
    (hf : s.layers? ls = some f) {d : Definition} (hd : I.definition d) :
    I.Keeps (f d) I.definition := by
  induction ls generalizing f d with
  | nil => exact Option.some.inj hf ▸ .pure hd
  | cons l ls ih =>
    obtain ⟨first, hfirst, hrest⟩ := Option.bind_eq_some_iff.mp hf
    obtain ⟨others, hothers, rfl⟩ := Option.map_eq_some_iff.mp hrest
    exact .bind (keeps_layer? hfirst hd) fun d hd => ih hothers hd

include h

theorem definition_of_named {name : String} {d : Definition} (hd : s.definition? name = some d) :
    I.definition d := by
  obtain ⟨i, -, hi⟩ := Option.bind_eq_some_iff.mp hd
  exact h i d hi

theorem keeps_seed? {e : SeedExpr} (he : e.Bodies I.body) {assembly : Assembly Seed}
    (ha : s.seed? e = some assembly) : I.Keeps assembly I.seed := by
  induction e generalizing assembly with
  | identity => exact Option.some.inj ha ▸ .pure I.identity
  | either => exact Option.some.inj ha ▸ .pure I.either
  | results => exact Option.some.inj ha ▸ .pure I.results
  | boxed => exact Option.some.inj ha ▸ .pure I.boxed
  | looping => exact Option.some.inj ha ▸ keeps_looping
  | unnamed => exact Option.some.inj ha ▸ .pure (I.nothing none)
  | named name => exact Option.some.inj ha ▸ .pure (I.nothing (some name))
  | extend name layer =>
    obtain ⟨d, hd, rfl⟩ := Option.map_eq_some_iff.mp ha
    exact .readingHomes fun home => .pure (extend (definition_of_named h hd) home layer)
  | override seed op params body ih =>
    obtain ⟨inner, hinner, rfl⟩ := Option.map_eq_some_iff.mp ha
    refine .bind (ih he.1 hinner) fun seed hseed => .pure (I.set hseed ?_)
    exact I.override s.env op params he.2

theorem keeps_recipe? {r : Recipe} (hr : r.Bodies I.body) {assembly : Assembly Definition}
    (ha : s.recipe? r = some assembly) : I.Keeps assembly I.definition := by
  cases r with
  | options e o =>
    obtain ⟨seed, hseed, rfl⟩ := Option.map_eq_some_iff.mp ha
    exact .bind (keeps_seed? h hr hseed) fun seed hseed => keeps_build hseed o
  | toml e text =>
    obtain ⟨seed, hseed, rfl⟩ := Option.map_eq_some_iff.mp ha
    refine .bind (keeps_seed? h hr hseed) fun seed hseed => ?_
    split
    · exact keeps_build hseed _
    · exact .refuse _
  | layers e ls =>
    obtain ⟨seed, hseed, hrest⟩ := Option.bind_eq_some_iff.mp ha
    obtain ⟨layers, hlayers, rfl⟩ := Option.map_eq_some_iff.mp hrest
    refine .bind (keeps_seed? h hr hseed) fun seed hseed => ?_
    exact .bind (keeps_complete hseed) fun d hd => keeps_layers? hlayers hd
  | on name ls =>
    obtain ⟨d, hd, hrest⟩ := Option.bind_eq_some_iff.mp ha
    obtain ⟨layers, hlayers, rfl⟩ := Option.map_eq_some_iff.mp hrest
    exact keeps_layers? hlayers (definition_of_named h hd)

end Invariant

/-! ## Sessions -/

namespace Session

variable {s : Session}

/-- Running a program makes no definition. -/
theorem catalog_evaluate {p : Prog Value} {r : Except Fault Value × Answer × Session}
    (hr : s.evaluate p = some r) : r.2.2.catalog = s.catalog := by
  simp only [evaluate] at hr
  split at hr
  · cases hr
  · obtain rfl := Option.some.inj hr
    rfl

/-- What evaluating an expression by a definition preserves holds after it was evaluated by each of
some definitions. -/
theorem preserved_onEach {P : Session → Prop} {e : Expr}
    (hevaluate : ∀ (d : Definition) (u : Session) r, P u →
      u.evaluate (do DefId.execute d.id (← Closure.reify { code := fun _ => e.eval u.env })) =
        some r → P r.2.2)
    {ds : List Definition} {answers : List (String × Answer)} {s' : Session} (h : P s)
    (hr : onEach e ds s = some (answers, s')) : P s' := by
  induction ds generalizing s answers with
  | nil =>
    obtain ⟨-, rfl⟩ := Prod.mk.inj (Option.some.inj hr)
    exact h
  | cons d ds ih =>
    obtain ⟨⟨result, a, after⟩, hfirst, hrest⟩ := Option.bind_eq_some_iff.mp hr
    obtain ⟨⟨others, last⟩, hothers, heq⟩ := Option.map_eq_some_iff.mp hrest
    obtain ⟨-, rfl⟩ := Prod.mk.inj heq
    exact ih (hevaluate d s _ h hfirst) hothers

/-- What every step preserves holds after each of them. -/
theorem preserved_run {P : Session → Prop} {ts : List Step}
    (hstep : ∀ t ∈ ts, ∀ (u : Session) r, P u → u.step t = some r → P r.2) (h : P s)
    {rs : List (Reply × Session)} (hr : Session.run ts s = some rs) : ∀ r ∈ rs, P r.2 := by
  induction ts generalizing s rs with
  | nil =>
    obtain rfl := Option.some.inj hr
    exact List.forall_mem_nil _
  | cons t ts ih =>
    obtain ⟨⟨reply, after⟩, hfirst, hrest⟩ := Option.bind_eq_some_iff.mp hr
    obtain ⟨others, hothers, rfl⟩ := Option.map_eq_some_iff.mp hrest
    obtain ⟨ht, hts⟩ := List.forall_mem_cons.mp hstep
    have hafter : P after := ht s _ h hfirst
    exact List.forall_mem_cons.mpr ⟨hafter, ih hts hafter hothers⟩

theorem catalog_onEach {e : Expr} {ds : List Definition} {answers : List (String × Answer)}
    {s' : Session} (hr : onEach e ds s = some (answers, s')) : s'.catalog = s.catalog := by
  refine preserved_onEach (P := fun u => u.catalog = s.catalog)
    (fun d u r hu hevaluate => ?_) rfl hr
  exact (catalog_evaluate hevaluate).trans hu

/-- Assembling leaves the catalog of what was assembled, if the report leaves it as it is. -/
theorem catalog_assembling {α : Type 1} {assembly : Assembly α}
    {report : Session → α → Reply × Session}
    (hreport : ∀ u a, (report u a).2.catalog = u.catalog) :
    (s.assembling assembly report).2.catalog = (assembly s.catalog).2 := by
  unfold assembling
  rcases assembly s.catalog with ⟨e | a, c⟩
  · rfl
  · exact hreport _ a

end Session

namespace Invariant

variable {I : Invariant} {s : Session}

theorem holds_assembling {α : Type 1} {assembly : Assembly α} {P : α → Prop}
    (ha : I.Keeps assembly P) (h : I.Holds s.catalog) {report : Session → α → Reply × Session}
    (hreport : ∀ t a, (report t a).2.catalog = t.catalog) :
    I.Holds (s.assembling assembly report).2.catalog := by
  rw [Session.catalog_assembling hreport]
  exact (ha s.catalog h).1

/-- A step makes only definitions with the property. -/
theorem holds_step (h : I.Holds s.catalog) {t : Step} (ht : t.Bodies I.body) {r : Reply × Session}
    (hr : s.step t = some r) : I.Holds r.2.catalog := by
  cases t with
  | define name recipe =>
    obtain ⟨assembly, ha, rfl⟩ := Option.map_eq_some_iff.mp hr
    exact holds_assembling (keeps_recipe? h ht ha) h fun _ _ => rfl
  | showSeed e =>
    obtain ⟨assembly, ha, rfl⟩ := Option.map_eq_some_iff.mp hr
    exact holds_assembling (keeps_seed? h ht ha) h fun _ _ => rfl
  | freshBrand name title =>
    obtain rfl := Option.some.inj hr
    exact h
  | brandOf name definition =>
    obtain ⟨brand, -, rfl⟩ := Option.map_eq_some_iff.mp hr
    exact h
  | adopt name definition =>
    obtain ⟨brand, -, hrest⟩ := Option.bind_eq_some_iff.mp hr
    obtain ⟨d, -, rfl⟩ := Option.map_eq_some_iff.mp hrest
    exact h
  | drop name =>
    simp only [Session.step] at hr
    split at hr
    · exact Option.some.inj hr ▸ h
    · cases hr
  | readOptions text =>
    simp only [Session.step] at hr
    split at hr <;> exact Option.some.inj hr ▸ h
  | eval e x =>
    obtain ⟨⟨result, a, after⟩, hevaluate, rfl⟩ := Option.map_eq_some_iff.mp hr
    have hafter : I.Holds after.catalog := Session.catalog_evaluate hevaluate ▸ h
    cases result with
    | error e => exact hafter
    | ok v => cases x <;> exact hafter
  | grid e =>
    obtain ⟨hcatalog, -⟩ := keeps_grid s.catalog h
    simp only [Session.step] at hr
    split at hr
    · rename_i ds c hgrid
      rw [hgrid] at hcatalog
      obtain ⟨⟨answers, after⟩, heach, rfl⟩ := Option.map_eq_some_iff.mp hr
      exact Session.catalog_onEach heach ▸ hcatalog
    · rename_i e c hgrid
      rw [hgrid] at hcatalog
      exact Option.some.inj hr ▸ hcatalog

/-- So do all steps. -/
theorem holds_run (h : I.Holds s.catalog) {ts : List Step} (hts : ∀ t ∈ ts, t.Bodies I.body)
    {rs : List (Reply × Session)} (hr : Session.run ts s = some rs) :
    ∀ r ∈ rs, I.Holds r.2.catalog :=
  Session.preserved_run (P := fun u => I.Holds u.catalog)
    (fun t ht _ _ hu hstep => holds_step hu (hts t ht) hstep) h hr

end Invariant

end EffectLayers
