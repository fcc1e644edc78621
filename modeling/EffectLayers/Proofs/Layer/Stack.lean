import EffectLayers.Proofs.Layer.Respect
import EffectLayers.Proofs.Program.Computes

/-!
# Stacks of layers

Seen from outside, a stack of layers does three things: it wraps the effect values beneath it, it
runs callbacks with its definition installed, and it takes what they answer back to what is
beneath.

## Main definitions

* `Wrapping`: how effect values are wrapped, and how the answers of callbacks are taken back.
* `Definition.Wraps`: the operations of a definition are those beneath it, wrapped.
* `Definition.Fixes`: `coerce`, if there is one, leaves effect values as they are.
* `Options.packed`, `Options.installer`: the wrapping of a definition that was built.

## Main statements

* `Definition.Wraps.trans`: one layer on top of another.
* `Seed.build_wraps`: what is built wraps what it is built on.
-/

namespace EffectLayers

/-- Run a program with the definition installed, if there is one. -/
def Prog.under (x : Option Installer) (p : Prog Value) : Prog Value :=
  match x with
  | none => p
  | some a => a.around p

/-- How a layer wraps the effect values beneath it, and how callbacks run under it: with a
definition installed, if there is one, and their answers taken back to what is beneath. -/
structure Wrapping where
  wrap : Value → Value
  unwrap : Value → Value
  back : Value → Prog Value
  installer : Option Installer
  unwrap_wrap : ∀ v, unwrap (wrap v) = v

namespace Wrapping

variable (V W : Wrapping)

/-- A program with its result wrapped. -/
def wrapped (p : Prog Value) : Prog Value := do return W.wrap (← p)

/-- A callback's program under the layer. -/
def enter (p : Prog Value) : Prog Value := do W.back (← p.under W.installer)

def callback (f : Callback) : Callback := f.map fun code v => W.enter (code v)

/-- A block body under the layer; the escape handed to it wraps its result. -/
def body (f : Body) : Body :=
  f.map fun code escape => W.enter (code (escape.map fun send v => W.wrapped (send v)))

/-- Effect values that were wrapped. -/
def Image (E : Value → Prop) (v : Value) : Prop := ∃ a, E a ∧ v = W.wrap a

/-- What was wrapped is taken back at once. -/
def Returns (E : Value → Prop) : Prop := ∀ a, E a → (W.back (W.wrap a)).Alike (pure a)

/-- No layer. -/
def none : Wrapping := ⟨id, id, pure, .none, fun _ => rfl⟩

@[simp] theorem wrapped_none (p : Prog Value) : none.wrapped p = p := bind_pure p

@[simp] theorem enter_none (p : Prog Value) : none.enter p = p := bind_pure p

@[simp] theorem body_none (f : Body) : none.body f = f := by
  obtain ⟨code, holds⟩ := f
  simp only [body, enter_none, wrapped_none]
  rfl

theorem returns_none (E : Value → Prop) : none.Returns E := fun _ _ => .refl _

/-- A layer that wraps nothing leaves effect values as they are. -/
theorem image_of_wrap_eq_id {W : Wrapping} (h : W.wrap = id) (E : Value → Prop) :
    W.Image E = E := by
  funext v
  simp [Image, h]

/-- A layer on top of another one. -/
def comp : Wrapping where
  wrap := V.wrap ∘ W.wrap
  unwrap := W.unwrap ∘ V.unwrap
  back v := do W.back (← V.back v)
  installer := V.installer
  unwrap_wrap v := by simp [V.unwrap_wrap, W.unwrap_wrap]

theorem wrapped_comp (p : Prog Value) : (V.comp W).wrapped p = V.wrapped (W.wrapped p) := by
  simp only [wrapped, bind_assoc, pure_bind]
  rfl

variable {W}

theorem enter_comp (h : W.installer = .none) (p : Prog Value) :
    (V.comp W).enter p = W.enter (V.enter p) := by
  simp only [enter, h, Prog.under, bind_assoc]
  rfl

theorem callback_comp (h : W.installer = .none) (f : Callback) :
    (V.comp W).callback f = W.callback (V.callback f) := by
  simp only [callback, enter_comp V h]
  rfl

theorem body_comp (h : W.installer = .none) (f : Body) :
    (V.comp W).body f = W.body (V.body f) := by
  simp only [body, enter_comp V h, wrapped_comp]
  rfl

variable {V}

theorem image_comp (E : Value → Prop) : (V.comp W).Image E = V.Image (W.Image E) := by
  funext v
  refine propext ⟨?_, ?_⟩
  · rintro ⟨a, ha, rfl⟩
    exact ⟨_, ⟨a, ha, rfl⟩, rfl⟩
  · rintro ⟨_, ⟨a, ha, rfl⟩, rfl⟩
    exact ⟨a, ha, rfl⟩

theorem Returns.comp {E : Value → Prop} (hW : W.Returns E) (hV : V.Returns (W.Image E)) :
    (V.comp W).Returns E := by
  intro a ha
  exact ((hV _ ⟨a, ha, rfl⟩).bind_left W.back).trans (hW a ha)

end Wrapping

namespace Prog.Alike

variable {p q : Prog Value}

theorem wrapped (W : Wrapping) (h : p.Alike q) : (W.wrapped p).Alike (W.wrapped q) :=
  h.bind_left _

end Prog.Alike

/-- If the definition was given a `coerce`, it leaves effect values as they are, at once. -/
def Definition.Fixes (d : Definition) (E : Value → Prop) : Prop :=
  d.supplies .coerce = true → ∀ a, E a → (d.table .coerce a).Alike (pure a)

/-- The operations of a definition are those of the one beneath it, with effect values wrapped and
callbacks run under the layers. Where `coerce` leaves effect values as they are, their wrappings
are taken back at once. -/
structure Definition.Wraps (outer inner : Definition) (W : Wrapping) : Prop where
  pure : ∀ v, (outer.table .pure v).Alike (W.wrapped (inner.table .pure v))
  raise : inner.supplies .raise = true → outer.supplies .raise = true ∧
    ∀ e, (outer.table .raise e).Alike (W.wrapped (inner.table .raise e))
  map : ∀ a f, (outer.table .map (W.wrap a) f).Alike (W.wrapped (inner.table .map a f))
  bind : ∀ a f,
    (outer.table .bind (W.wrap a) f).Alike (W.wrapped (inner.table .bind a (W.callback f)))
  handle : ∀ a f,
    (outer.table .handle (W.wrap a) f).Alike (W.wrapped (inner.table .handle a (W.callback f)))
  cleanup : ∀ a f,
    (outer.table .cleanup (W.wrap a) f).Alike (W.wrapped (inner.table .cleanup a (f.map W.enter)))
  block : ∀ body, (outer.table .block body).Alike (W.wrapped (inner.table .block (W.body body)))
  fixes : ∀ E, inner.Fixes E → outer.Fixes (W.Image E)
  returns : ∀ E, inner.Fixes E → W.Returns E

namespace Definition.Wraps

variable {outer mid inner : Definition} {V W : Wrapping}

theorem refl (d : Definition) : d.Wraps d .none := by
  constructor
  case raise => exact fun h => ⟨h, fun e => .of_eq (Wrapping.wrapped_none _).symm⟩
  case fixes => exact fun E h => (Wrapping.image_of_wrap_eq_id (W := .none) rfl E).symm ▸ h
  case returns => exact fun E _ => Wrapping.returns_none E
  case cleanup =>
    intro a f
    have hmap : f.map Wrapping.none.enter = f := by
      simp only [Closure.map, Wrapping.enter_none]
    rw [hmap, Wrapping.wrapped_none]
    exact .refl _
  case block =>
    intro body
    rw [Wrapping.body_none, Wrapping.wrapped_none]
    exact .refl _
  case bind | handle =>
    intro a f
    have hcallback : Wrapping.none.callback f = f := by
      simp only [Wrapping.callback, Wrapping.enter_none]
      rfl
    rw [hcallback, Wrapping.wrapped_none]
    exact .refl _
  all_goals
    intros
    rw [Wrapping.wrapped_none]
    exact .refl _

/-- One layer on top of another, which installs nothing itself. -/
theorem trans (h : outer.Wraps mid V) (h' : mid.Wraps inner W) (hW : W.installer = none) :
    outer.Wraps inner (V.comp W) := by
  constructor
  case pure =>
    intro v
    rw [Wrapping.wrapped_comp]
    exact (h.pure v).trans ((h'.pure v).wrapped V)
  case raise =>
    intro hinner
    obtain ⟨hmid, hraise'⟩ := h'.raise hinner
    obtain ⟨houter, hraise⟩ := h.raise hmid
    refine ⟨houter, fun e => ?_⟩
    rw [Wrapping.wrapped_comp]
    exact (hraise e).trans ((hraise' e).wrapped V)
  case map =>
    intro a f
    rw [Wrapping.wrapped_comp]
    exact (h.map (W.wrap a) f).trans ((h'.map a f).wrapped V)
  case bind =>
    intro a f
    rw [Wrapping.wrapped_comp, Wrapping.callback_comp V hW]
    exact (h.bind (W.wrap a) f).trans ((h'.bind a _).wrapped V)
  case handle =>
    intro a f
    rw [Wrapping.wrapped_comp, Wrapping.callback_comp V hW]
    exact (h.handle (W.wrap a) f).trans ((h'.handle a _).wrapped V)
  case cleanup =>
    intro a f
    have hmap : f.map (V.comp W).enter = (f.map V.enter).map W.enter := by
      simp only [Closure.map, Wrapping.enter_comp V hW]
    rw [Wrapping.wrapped_comp, hmap]
    exact (h.cleanup (W.wrap a) f).trans ((h'.cleanup a _).wrapped V)
  case block =>
    intro body
    rw [Wrapping.wrapped_comp, Wrapping.body_comp V hW]
    exact (h.block body).trans ((h'.block _).wrapped V)
  case fixes =>
    intro E hE
    rw [Wrapping.image_comp]
    exact h.fixes _ (h'.fixes E hE)
  case returns => exact fun E hE => (h'.returns E hE).comp (h.returns _ (h'.fixes E hE))

end Definition.Wraps

/-! ## Callbacks under the layers -/

/-- The definition, if there is one, is in use in every world that is admitted, and known. -/
def Setting.Installs (S : Setting) (x : Option Installer) : Prop :=
  ∀ a ∈ x, S.Hosts a.target ∧ a.target ∈ S.catalog.lineage a.target

namespace Prog

variable {x : Option Installer} {p : Prog Value}

/-- What is computed from a result is computed with the definition installed or after it. -/
theorem under_bind (x : Option Installer) (p : Prog Value) (g : Value → Value) :
    (Prog.under x (do return g (← p))).Alike (do return g (← p.under x)) := by
  cases x with
  | none => exact .refl _
  | some a =>
    simp only [under, Installer.around, bind_assoc]
    refine Alike.bind_right _ fun alive => ?_
    cases alive with
    | false => exact .refl _
    | true => exact Alike.inside_bind _ p fun u => .ok (g u)

theorem Alike.under {q : Prog Value} (h : p.Alike q) (x : Option Installer) :
    (p.under x).Alike (q.under x) := by
  cases x with
  | none => exact h
  | some a => exact Installer.around_alike a h

/-- Where the definition is alive, it is installed. -/
theorem run_around {c : Catalog} {w : World} {a : Installer} (h : w.alive c a.target = true)
    (b : Nat) (p : Prog Value) :
    (a.around p).run c b w = (Prog.inside (.installed a.target) p).run c b w := by
  rw [Installer.around, run_bind, run_query]
  simp only [Outcome.bind, Query.answer, h, if_true]

theorem Computes.under {S : Setting} {r : Except Fault Value} (hx : S.Installs x)
    (hp : p.Computes S r) : (p.under x).Computes S r := by
  cases x with
  | none => exact hp
  | some a =>
    obtain ⟨hhost, hlineage⟩ := hx a rfl
    obtain ⟨n, hp⟩ := hp.inside (.installed a.target)
    refine ⟨n, fun b w hb hw => ?_⟩
    rw [Prog.under, run_around ((hhost w hw).alive hlineage)]
    exact hp b w hb hw

theorem Once.under {c : Catalog} {host : DefId} (hx : ∀ a ∈ x, a.target = host)
    (hhost : host ∈ c.lineage host) (p : Prog Value) :
    (p.under x).Once c host (x.map (·.target)) p (· = ·) := by
  cases x with
  | none => exact .refl p
  | some a =>
    obtain rfl := hx a rfl
    refine ⟨0, fun b w _ hw => ?_⟩
    rw [Prog.under, run_around (hw.alive hhost), run_inside]
    refine ⟨w.entering (.installed a.target), .entering w _, rfl, hw.entering _, fun h hh => ?_,
      ?_⟩
    · rw [hh]
      rfl
    · rintro r w₂ _ hrun rfl
      rw [hrun]
      exact ⟨_, rfl, .leaving w₂ _ _, rfl⟩

end Prog

namespace Wrapping

variable {W : Wrapping} {E : Value → Prop}

/-- Under the layers a program runs once, and its answers are taken back at once. -/
theorem once_enter {c : Catalog} {host : DefId} (hx : ∀ a ∈ W.installer, a.target = host)
    (hhost : host ∈ c.lineage host) (hE : W.Returns E) (p : Prog Value) :
    (W.enter p).Once c host (W.installer.map (·.target)) p
      (Prog.Once.Translates E W.wrap fun v => v) :=
  (Prog.Once.under hx hhost p).answering.translate hE

theorem once_wrapped {c : Catalog} {host : DefId} {x : Option DefId} {p q : Prog Value}
    {g k : Value → Value} (hp : p.Once c host x q (Prog.Once.Translates E g k)) :
    (W.wrapped p).Once c host x q (Prog.Once.Translates E g fun n => W.wrap (k n)) :=
  hp.translate fun _ _ => .refl _

theorem computes_enter {S : Setting} (hx : S.Installs W.installer) (hE : W.Returns E)
    {p : Prog Value} {n : Value} (hn : E n) (hp : p.Computes S (.ok (W.wrap n))) :
    (W.enter p).Computes S (.ok n) :=
  (hp.under hx).bind (.of_alike_done (hE n hn))

theorem computes_wrapped {S : Setting} {p : Prog Value} {n : Value} (hp : p.Computes S (.ok n)) :
    (W.wrapped p).Computes S (.ok (W.wrap n)) :=
  hp.bind (.pure _)

end Wrapping

/-! ## The layers -/

namespace Packing

variable {w : Packing}

/-- The layer of a carrier. -/
def wrapping (w : Packing) : Wrapping where
  wrap := w.pack
  unwrap v := (w.inner? v).getD v
  back := w.unpack
  installer := none
  unwrap_wrap v := by simp

theorem returns (w : Packing) (E : Value → Prop) : w.wrapping.Returns E :=
  fun a _ => .of_eq (w.unpack_pack a)

theorem bindWith_pack {α : Type 1} (bind : Value → Closure α → Prog Value) (a : Value)
    (f : Closure α) : (w.bindWith bind (w.pack a) f).Alike (w.packed (bind a f)) := by
  unfold bindWith
  rw [unpack_pack]
  exact (Prog.Alike.inside_done _ (.ok a)).bind_left _

end Packing

namespace Coercion

/-- The layer of coercion. -/
def wrapping (coerce : Value → Prog Value) : Wrapping :=
  { Wrapping.none with back := coerce }

theorem wrapped_wrapping (coerce : Value → Prog Value) (p : Prog Value) :
    (wrapping coerce).wrapped p = p :=
  bind_pure p

theorem body_wrapping (coerce : Value → Prog Value) (body : Body) :
    (wrapping coerce).body body = coercedBody coerce body := by
  simp only [Wrapping.body, wrapped_wrapping]
  rfl

end Coercion

namespace Wrapping

/-- The layer of a context that installs its definition, if there is one to be installed. -/
def installing (x : Option Installer) : Wrapping := { none with installer := x }

variable {x : Option Installer}

theorem wrapped_installing (p : Prog Value) : (installing x).wrapped p = p := bind_pure p

theorem enter_installing (p : Prog Value) : (installing x).enter p = p.under x :=
  bind_pure (p.under x)

theorem callback_installing (f : Callback) :
    (installing x).callback f = f.map fun code v => (code v).under x := by
  simp only [callback, enter_installing]

theorem body_installing (f : Body) :
    (installing x).body f = f.map fun code escape => (code escape).under x := by
  simp only [body, enter_installing, wrapped_installing]
  rfl

end Wrapping

/-- What a context layer installs around most callbacks, if its definition is the one given. -/
def ContextMode.installer (a : Installer) : ContextMode → Option Installer
  | full => some a
  | _ => none

namespace Definition

variable {inner d : Definition} {id : DefId}

/-- What a layer keeps is supplied if it was supplied beneath, and is the same then. -/
theorem kept_of_definition? {s : Seed} (layer : String) (op : Operation)
    (hd : s.definition? id = some d) (hop : Seed.keeps op = true)
    (hs : s.ops op = (Seed.keeping inner layer).ops op) :
    d.supplies op = inner.supplies op ∧
      (inner.supplies op = true → d.table op = inner.table op) := by
  have hkeeping : s.ops op = if inner.supplies op then some (inner.table op) else none := by
    rw [hs]
    cases op <;> first | contradiction | rfl
  constructor
  · rw [Seed.supplies_of_definition? hd, Seed.supplies, hkeeping]
    cases inner.supplies op <;> rfl
  · intro h
    rw [h] at hkeeping
    exact Seed.table_given hd op hkeeping

/-- A layer that keeps `coerce` and wraps nothing leaves effect values as they are. -/
theorem fixes_of_kept {E : Value → Prop}
    (h : d.supplies .coerce = inner.supplies .coerce ∧
      (inner.supplies .coerce = true → d.table .coerce = inner.table .coerce))
    (hE : inner.Fixes E) : d.Fixes E := by
  intro hd a ha
  have hinner := h.1.symm.trans hd
  rw [h.2 hinner]
  exact hE hinner a ha

theorem wraps_carrier {w : Packing} (hd : (w.seed inner).definition? id = some d) :
    d.Wraps inner w.wrapping := by
  have htable (op : Operation) {f : Signature op} (h : (w.seed inner).ops op = some f) :=
    Seed.table_of_definition? hd h
  constructor
  case pure =>
    intro v
    rw [(htable .pure rfl).2]
    exact .refl _
  case raise =>
    intro _
    refine ⟨(htable .raise rfl).1, fun e => ?_⟩
    rw [(htable .raise rfl).2]
    exact .refl _
  case map =>
    intro a f
    rw [(htable .map rfl).2]
    exact Packing.bindWith_pack _ a f
  case bind =>
    intro a f
    rw [(htable .bind rfl).2]
    exact Packing.bindWith_pack _ a f
  case handle =>
    intro a f
    rw [(htable .handle rfl).2]
    exact Packing.bindWith_pack _ a f
  case cleanup =>
    intro a f
    rw [(htable .cleanup rfl).2]
    exact Packing.bindWith_pack _ a f
  case block =>
    intro body
    rw [(htable .block rfl).2]
    exact .refl _
  case fixes =>
    rintro E - hd' _ ⟨a, -, rfl⟩
    -- What is a carrier of the brand already is left as it is.
    rw [Seed.supplies_of_definition? hd] at hd'
    obtain ⟨promote, hpromote⟩ := Option.isSome_iff_exists.mp hd'
    rw [(htable .coerce hpromote).2]
    obtain ⟨coerce, -, rfl⟩ := Option.map_eq_some_iff.mp hpromote
    exact .of_eq (w.coerce_pack coerce a)
  case returns => exact fun E _ => w.returns E

theorem wraps_coercion (hcoerce : inner.supplies .coerce = true)
    (hd : (Coercion.seed inner).definition? id = some d) :
    d.Wraps inner (Coercion.wrapping (inner.table .coerce)) := by
  have htable (op : Operation) {f : Signature op} (h : (Coercion.seed inner).ops op = some f) :=
    Seed.table_of_definition? hd h
  constructor
  case raise =>
    intro h
    obtain ⟨hsupplies, hraise⟩ := kept_of_definition? "coerce" .raise hd rfl rfl
    refine ⟨hsupplies.trans h, fun e => ?_⟩
    rw [hraise h, Coercion.wrapped_wrapping]
    exact .refl _
  case pure =>
    intro v
    rw [(htable .pure rfl).2, Coercion.wrapped_wrapping]
    exact .refl _
  case map =>
    intro a f
    rw [(htable .map rfl).2, Coercion.wrapped_wrapping]
    exact .refl _
  case bind =>
    intro a f
    rw [(htable .bind rfl).2, Coercion.wrapped_wrapping]
    exact .refl _
  case handle =>
    intro a f
    rw [(htable .handle rfl).2, Coercion.wrapped_wrapping]
    exact .refl _
  case cleanup =>
    intro a f
    rw [(htable .cleanup rfl).2, Coercion.wrapped_wrapping]
    exact .refl _
  case block =>
    intro body
    rw [(htable .block rfl).2, Coercion.wrapped_wrapping, Coercion.body_wrapping]
    exact .refl _
  case fixes =>
    intro E hE
    rw [Wrapping.image_of_wrap_eq_id rfl]
    exact fixes_of_kept (kept_of_definition? "coerce" .coerce hd rfl rfl) hE
  case returns => exact fun E hE => hE hcoerce

theorem name_of_contextSeed {mode : ContextMode}
    (hd : (inner.contextSeed mode id).definition? id = some d) :
    d.name = inner.name ++ "+context" := by
  obtain ⟨lift, -, rfl⟩ := Option.map_eq_some_iff.mp hd
  have happend : inner.name ++ "+" ++ "context" = inner.name ++ ("+" ++ "context") :=
    String.append_assoc
  exact happend

theorem wraps_context {mode : ContextMode}
    (hd : (inner.contextSeed mode id).definition? id = some d) :
    d.Wraps inner (.installing (mode.installer ⟨d.name, d.id⟩)) := by
  have hself : (⟨d.name, d.id⟩ : Installer) = ⟨inner.name ++ "+context", id⟩ := by
    rw [name_of_contextSeed hd, Seed.id_of_definition? hd]
  rw [hself]
  have htable (op : Operation) {f : Signature op}
      (h : (inner.contextSeed mode id).ops op = some f) : d.table op = f :=
    Seed.table_given hd op h
  have hkept (op : Operation) (hop : Seed.keeps op = true)
      (h : (inner.contextSeed mode id).ops op = (Seed.keeping inner "context").ops op) :=
    kept_of_definition? "context" op hd hop h
  constructor
  case raise =>
    intro h
    obtain ⟨hsupplies, hraise⟩ := hkept .raise rfl (by cases mode <;> rfl)
    refine ⟨hsupplies.trans h, fun e => ?_⟩
    rw [hraise h, Wrapping.wrapped_installing]
    exact .refl _
  case pure =>
    intro v
    rw [htable .pure (by cases mode <;> rfl), Wrapping.wrapped_installing]
    exact .refl _
  case map =>
    intro a f
    rw [htable .map (by cases mode <;> rfl), Wrapping.wrapped_installing]
    exact .refl _
  case bind =>
    intro a f
    rw [Wrapping.wrapped_installing, Wrapping.callback_installing]
    cases mode <;> exact .of_eq (congrFun (congrFun (htable .bind rfl) a) f)
  case handle =>
    intro a f
    rw [Wrapping.wrapped_installing, Wrapping.callback_installing]
    cases mode <;> exact .of_eq (congrFun (congrFun (htable .handle rfl) a) f)
  case cleanup =>
    intro a f
    have hmap {x : Option Installer} :
        f.map (Wrapping.installing x).enter = f.map (Prog.under x) := by
      simp only [Closure.map, Wrapping.enter_installing]
    rw [Wrapping.wrapped_installing, hmap]
    cases mode <;> exact .of_eq (congrFun (congrFun (htable .cleanup rfl) a) f)
  case block =>
    intro body
    rw [Wrapping.wrapped_installing, Wrapping.body_installing]
    cases mode <;> exact .of_eq (congrFun (htable .block rfl) body)
  case fixes =>
    intro E hE
    rw [Wrapping.image_of_wrap_eq_id rfl]
    exact fixes_of_kept (hkept .coerce rfl (by cases mode <;> rfl)) hE
  case returns => exact fun E _ => Wrapping.returns_none E

end Definition

/-! ## Building -/

/-- What a definition that was built installs around callbacks. -/
def Options.installer (o : Options) (d : Definition) : Option Installer :=
  o.context.installer ⟨d.name, d.id⟩

/-- The value in a carrier of the brand, if there is one. -/
def Value.packed (brand : Option Brand) (v : Value) : Value :=
  match brand with
  | some brand => .carrier brand v
  | none => v

theorem Options.target_of_installer {o : Options} {d : Definition} {a : Installer}
    (h : a ∈ o.installer d) : a.target = d.id := by
  unfold installer ContextMode.installer at h
  cases hcontext : o.context <;> rw [hcontext] at h <;> cases h
  rfl

/-- A definition that is known and in use can be installed. -/
theorem Options.installs {o : Options} {d : Definition} {S : Setting}
    (hknown : d.KnownIn S.catalog) (hhost : S.Hosts d.id) : S.Installs (o.installer d) := by
  intro a ha
  rw [target_of_installer ha]
  exact ⟨hhost, Definition.mem_lineage hknown⟩

/-- An effect value beneath the layers as one of the definition that was built. -/
def Options.packed (o : Options) (d : Definition) (v : Value) : Value :=
  match o.carrier with
  | some _ => v.packed d.carrierBrand?
  | none => v

theorem Seed.carrierBrand?_of_definition? {s : Seed} {id : DefId} {d inner : Definition}
    (hd : s.definition? id = some d) (hbase : s.base = some inner) :
    d.carrierBrand? = s.brand.or inner.carrierBrand? := by
  obtain ⟨lift, -, rfl⟩ := Option.map_eq_some_iff.mp hd
  rw [Definition.carrierBrand?.eq_def, hbase]
  cases s.brand <;> rfl

namespace Definition

variable {inner d : Definition} {c c' : Catalog}

theorem wraps_of_carried {brand : Option Brand} (h : inner.carried brand c = (.ok d, c')) :
    d.carrierBrand? = brand.or inner.carrierBrand? ∧
      ∃ W, d.Wraps inner W ∧ (∀ v, W.wrap v = v.packed brand) ∧ W.installer = none := by
  cases brand with
  | none =>
    cases h
    exact ⟨rfl, .none, .refl _, fun _ => rfl, rfl⟩
  | some brand =>
    obtain ⟨i, hd⟩ := definition?_of_withCarrier h
    exact ⟨Seed.carrierBrand?_of_definition? hd rfl, _, wraps_carrier hd, fun _ => rfl, rfl⟩

theorem wraps_of_coercing {coercion : Bool} (h : inner.coercing coercion c = (.ok d, c')) :
    d.carrierBrand? = inner.carrierBrand? ∧
      ∃ W, d.Wraps inner W ∧ (∀ v, W.wrap v = v) ∧ W.installer = none := by
  cases coercion with
  | false =>
    cases h
    exact ⟨rfl, .none, .refl _, fun _ => rfl, rfl⟩
  | true =>
    obtain ⟨i, hd⟩ := definition?_of_withCoercion h
    have hcoerce : inner.supplies .coerce = true := by
      cases hcoerce : inner.supplies .coerce with
      | true => rfl
      | false => simp [coercing, withCoercion, hcoerce, Assembly.refuse] at h
    exact ⟨Seed.carrierBrand?_of_definition? hd rfl, _, wraps_coercion hcoerce hd,
      fun _ => rfl, rfl⟩

theorem wraps_of_withContext {mode : ContextMode} (h : inner.withContext mode c = (.ok d, c')) :
    d.carrierBrand? = inner.carrierBrand? ∧
      ∃ W, d.Wraps inner W ∧ (∀ v, W.wrap v = v) ∧ W.installer = mode.installer ⟨d.name, d.id⟩ := by
  by_cases hmode : mode = .off
  · subst hmode
    cases h
    exact ⟨rfl, .none, .refl _, fun _ => rfl, rfl⟩
  · obtain ⟨i, hd⟩ := definition?_of_withContext hmode h
    exact ⟨Seed.carrierBrand?_of_definition? hd rfl, _, wraps_context hd, fun _ => rfl, rfl⟩

theorem wraps_of_withLayers {o : Options} {brand : Option Brand}
    (h : inner.withLayers o brand c = (.ok d, c')) :
    d.carrierBrand? = brand.or inner.carrierBrand? ∧
      ∃ W, d.Wraps inner W ∧ (∀ v, W.wrap v = v.packed brand) ∧ W.installer = o.installer d := by
  obtain ⟨d₁, c₁, d₂, c₂, c₃, hcarried, hcoercing, hcontext, -⟩ := stages_of_withLayers h
  obtain ⟨hbrand₁, W₁, hwraps₁, hwrap₁, hinstaller₁⟩ := wraps_of_carried hcarried
  obtain ⟨hbrand₂, W₂, hwraps₂, hwrap₂, hinstaller₂⟩ := wraps_of_coercing hcoercing
  obtain ⟨hbrand₃, W₃, hwraps₃, hwrap₃, hinstaller₃⟩ := wraps_of_withContext hcontext
  refine ⟨hbrand₃.trans (hbrand₂.trans hbrand₁), W₃.comp (W₂.comp W₁), ?_, ?_, hinstaller₃⟩
  · exact hwraps₃.trans (hwraps₂.trans hwraps₁ hinstaller₁) hinstaller₂
  · intro v
    exact (hwrap₃ _).trans ((hwrap₂ _).trans (hwrap₁ v))

end Definition

/-- With escape control or without it, `coerce` leaves the same values as they are. -/
theorem Definition.Fixes.escaping {d e : Definition} {E : Value → Prop} {escape : Bool}
    {c c' : Catalog} (h : d.Fixes E) (he : d.escaping escape c = (.ok e, c')) : e.Fixes E := by
  cases escape with
  | false =>
    cases he
    exact h
  | true =>
    obtain ⟨i, he⟩ := Definition.definition?_of_withEscapeControl he
    refine fixes_of_kept (kept_of_definition? "escape" .coerce he rfl ?_) h
    unfold Escape.seed
    split <;> rfl

/-- What is built wraps what it is built on: the completed seed, with escape control if it was
asked for. -/
theorem Seed.build_wraps {s : Seed} {o : Options} {c c' : Catalog} {d : Definition}
    (h : s.build o c = (.ok d, c')) :
    ∃ d₀ c₀ e c₁ W, s.complete c = (.ok d₀, c₀) ∧ d₀.escaping o.escape c₀ = (.ok e, c₁) ∧
      d.Wraps e W ∧ W.wrap = o.packed d ∧ W.installer = o.installer d := by
  obtain ⟨d₀, c₀, e, c₁, brand, c₂, hcomplete, hescaping, rfl, h⟩ := stages_of_build h
  obtain ⟨hbrand, W, hwraps, hwrap, hinstaller⟩ := Definition.wraps_of_withLayers h
  refine ⟨d₀, c₀, e, c₁, W, hcomplete, hescaping, hwraps, funext fun v => ?_, hinstaller⟩
  rw [hwrap, Options.packed]
  cases hcarrier : o.carrier with
  | none => rfl
  | some name =>
    rw [hcarrier] at hbrand
    rw [hbrand]
    rfl

end EffectLayers
