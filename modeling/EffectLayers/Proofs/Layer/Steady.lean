import EffectLayers.Proofs.Layer.Kind
import EffectLayers.Proofs.Program.Steady

/-!
# Steady definitions

Whatever is derived, layered on top or ready-made installs nothing outside of scopes that put it
back, if its callbacks and what it is made from do not.

## Main definitions

* `Operation.Steady`: an operation whose programs are steady if its callbacks are.
* `Seed.Steady`, `Definition.Steady`, `Catalog.Steady`: every operation is, of all that a
  definition is layered on too.

## Main statements

* `Prog.Kind.steady`: steady programs are a kind.
* `Seed.Steady.definition?`: what is derived is steady.
* `Definition.Steady.escape`, `Definition.Steady.carrier` and the like: so is what a layer gives.
* `Operation.steady_ofBody`: so is an operation that a steady body stands in for.
* `Catalog.Steady.answer`: so is what a definition answers.
-/

namespace EffectLayers

/-- A source whose steps install nothing outside of scopes that put it back. -/
structure Source.Steady (g : Source) : Prop where
  start : g.start.code.Steady false
  step : ∀ s v, (g.step s v).Steady false

/-- A body of a block that does so only if the escape does that it is given. -/
def Closure.SteadyBody (body : Body) : Prop :=
  ∀ k : Callback, k.Steady → (body.code k).Steady false

/-- An operation whose programs are steady, given steady callbacks. -/
def Operation.Steady : (op : Operation) → Signature op → Prop
  | .pure | .raise | .coerce | .join | .opt | .reflect | .pack | .unpack =>
    fun p => ∀ v, (p v).Steady false
  | .pair | .const | .unshiftTo | .plus => fun p => ∀ a b, (p a b).Steady false
  | .bind | .map | .handle => fun p => ∀ a (f : Callback), f.Steady → (p a f).Steady false
  | .arr | .alt => fun p => ∀ items, (p items).Steady false
  | .empty => fun p => p.Steady false
  | .cleanup => fun p => ∀ a (f : Action), f.code.Steady false → (p a f).Steady false
  | .block | .scope => fun p => ∀ body : Body, body.SteadyBody → (p body).Steady false
  | .iterate => fun p => ∀ (body : Callback) v, body.Steady → (p body v).Steady false
  | .forPar => fun p => ∀ (test : Test) (body step : Callback) v,
    (∀ v, (test.code v).Steady false) → body.Steady → step.Steady →
      (p test body step v).Steady false
  | .seq => fun p => ∀ g : Source, g.Steady → (p g).Steady false
  | .run | .reify => fun p => ∀ f : Action, f.code.Steady false → (p f).Steady false

/-- Every operation is steady. -/
def Table.Steady (t : Table) : Prop := ∀ op : Operation, op.Steady (t op)

/-- Every operation of the definition, and of those that it is layered on, is steady. -/
def Definition.Steady : Definition → Prop
  | ⟨_, _, base, _, _, _, table⟩ =>
    table.Steady ∧ match base with
      | some d => d.Steady
      | none => True

/-- Every operation that the seed gives is steady, and so is what it is layered on. -/
structure Seed.Steady (s : Seed) : Prop where
  ops : ∀ op f, s.ops op = some f → op.Steady f
  base : ∀ d, s.base = some d → d.Steady

/-- Every definition that was made is steady. -/
def Catalog.Steady (c : Catalog) : Prop := ∀ (i : DefId) d, c.get? i = some d → d.Steady

/-! ## Callbacks -/

namespace Closure

theorem Steady.call {f : Callback} (h : f.Steady) (v : Value) : (f.call v).Steady false :=
  (h v).holding _

theorem Steady.reify {f : Callback} (h : f.Steady) : f.reify.Steady false :=
  ⟨h, fun _ => trivial⟩

theorem steady_ignoring {f : Action} (h : f.code.Steady false) : f.ignoring.Steady :=
  fun v => h.keeping [v]

end Closure

theorem Value.steady_callback (f : Value) : f.callback.Steady := fun v => Prog.steady_call f v

@[simp] theorem Value.steady_asInt (v : Value) : v.asInt.Steady false := by cases v <;> trivial

@[simp] theorem Value.steady_asBool (v : Value) : v.asBool.Steady false := by cases v <;> trivial

@[simp] theorem Value.steady_asString (v : Value) : v.asString.Steady false := by
  cases v <;> trivial

@[simp] theorem Value.steady_asList (v : Value) : v.asList.Steady false := by cases v <;> trivial

@[simp] theorem Value.steady_asCarried (v : Value) : v.asCarried.Steady false := by
  cases v <;> trivial

/-! ## Dispatch -/

@[simp] theorem DefId.steady_invoke (d : DefId) (op : Operation) (args : List Value) :
    (DefId.invoke d op args).Steady false :=
  fun _ => trivial

@[simp] theorem Ambient.steady_definition : Ambient.definition.Steady false := by
  refine .bind (Prog.steady_query rfl) fun d => ?_
  cases d <;> trivial

@[simp] theorem Ambient.steady_invoke (op : Operation) (args : List Value) :
    (Ambient.invoke op args).Steady false :=
  Ambient.steady_definition.bind fun _ => DefId.steady_invoke ..

theorem Value.steady_dispatch (v : Value) : v.dispatch.Steady false := by
  cases v with
  | carrier brand inner =>
    refine .bind (Prog.steady_query rfl) fun home => ?_
    cases home with
    | none => exact Ambient.steady_definition
    | some d =>
      refine .bind (Prog.steady_query rfl) fun alive => ?_
      cases alive <;> trivial
  | _ => trivial

theorem Value.steady_invoke_dispatch (v : Value) (op : Operation) (args : List Value) :
    Prog.Steady false (do DefId.invoke (← v.dispatch) op args) :=
  v.steady_dispatch.bind fun _ => DefId.steady_invoke ..

theorem Value.steady_method (m : Method) (v : Value) (args : List Value) :
    (v.method m args).Steady false := by
  unfold Value.method
  split
  · exact (steady_asList _).bind fun _ => v.steady_invoke_dispatch _ _
  · refine v.steady_dispatch.bind fun d => .bind (Prog.steady_query rfl) fun _ => ?_
    exact .bind (Prog.steady_ofOption _) fun _ => trivial
  · exact (Prog.steady_ofOption _).bind fun op => v.steady_invoke_dispatch _ _

/-! ## A kind of programs -/

/-- Programs that install nothing outside of scopes that put it back. -/
def Prog.Kind.steady : Prog.Kind where
  Of := Prog.Steady false
  pure := steady_pure
  throw _ := steady_throw _
  halt := steady_halt
  bounded h := h
  bind := Steady.bind
  holding := Steady.holding
  freshScope := steady_query rfl
  adopted := steady_query rfl
  reify := Closure.Steady.reify
  call := steady_call
  method := Value.steady_method

theorem Source.steady_iff {g : Source} : g.Steady ↔ g.Of .steady :=
  ⟨fun h => ⟨h.start, h.step⟩, fun h => ⟨h.start, h.step⟩⟩

theorem Operation.steady_iff {op : Operation} {f : Signature op} :
    op.Steady f ↔ op.Of .steady f := by
  cases op with
  | seq => exact forall_congr' fun g => imp_congr_left Source.steady_iff
  | _ => exact Iff.rfl

theorem Table.steady_iff {t : Table} : t.Steady ↔ t.Of .steady :=
  forall_congr' fun _ => Operation.steady_iff

theorem Value.steady_asStep (v : Value) : v.asStep.Steady false := Prog.Kind.steady.asStep v

theorem Source.Steady.generator {g : Source} (h : g.Steady) (s : g.State) :
    (g.generator s).Steady false :=
  Source.Of.generator (steady_iff.mp h) s

theorem Source.Steady.mapYields {g : Source} (h : g.Steady) {f : Callback} (hf : f.Steady) :
    (g.mapYields f).Steady :=
  steady_iff.mpr ((steady_iff.mp h).mapYields hf)

theorem Source.steady_ofValue (f : Value) : (Source.ofValue f).Steady :=
  steady_iff.mpr (Source.of_ofValue f)

/-- An operation that a steady body stands in for. -/
theorem Operation.steady_ofBody {program : List Value → Prog Value}
    (h : ∀ args, (program args).Steady false) (op : Operation) : op.Steady (op.ofBody program) :=
  steady_iff.mpr (of_ofBody (K := .steady) h op)

/-! ## Definitions -/

namespace Definition.Steady

variable {d : Definition} (h : d.Steady)

include h

theorem table : d.table.Steady := by
  cases d
  rw [Definition.Steady.eq_def] at h
  exact h.1

theorem base {inner : Definition} (hinner : d.base = some inner) : inner.Steady := by
  cases d
  rw [Definition.Steady.eq_def] at h
  obtain rfl := hinner
  exact h.2

end Definition.Steady

namespace Seed.Steady

variable {s : Seed}

theorem of (h : s.Steady) : s.Of .steady := fun op f hf => Operation.steady_iff.mp (h.ops op f hf)

/-- The definition of a steady seed is steady. -/
theorem definition? (h : s.Steady) {id : DefId} {d : Definition}
    (hd : s.definition? id = some d) : d.Steady := by
  have htable : d.table.Steady := Table.steady_iff.mpr (h.of.definition? hd)
  obtain ⟨lift, -, rfl⟩ := Option.map_eq_some_iff.mp hd
  rw [Definition.Steady.eq_def]
  refine ⟨htable, ?_⟩
  cases hbase : s.base with
  | none => trivial
  | some base => exact h.base base hbase

theorem set (h : s.Steady) (op : Operation) {f : Signature op} (hf : op.Steady f) :
    (s.set op f).Steady :=
  ⟨fun o g hg => Operation.steady_iff.mpr (h.of.set op (Operation.steady_iff.mp hf) o g hg),
    h.base⟩

end Seed.Steady

/-! ## Layers -/

namespace Definition.Steady

variable {inner : Definition}

theorem onBase (h : inner.Steady) {s : Seed} (hs : s.base = some inner) :
    ∀ d, s.base = some d → d.Steady := by
  intro d hd
  rw [hs] at hd
  exact Option.some.inj hd ▸ h

/-- A layer whose operations are steady. -/
theorem layer (h : inner.Steady) {s : Seed} (hs : s.Of .steady) (hbase : s.base = some inner) :
    s.Steady :=
  ⟨fun op f hf => Operation.steady_iff.mpr (hs op f hf), h.onBase hbase⟩

variable (h : inner.Steady)

include h

theorem escape : (Escape.seed inner).Steady := by
  refine h.layer (Table.steady_iff.mp h.table).escape ?_
  rw [Escape.seed]
  split <;> rfl

theorem carrier (brand : Brand) : ((inner.packing brand).seed inner).Steady :=
  h.layer ((Table.steady_iff.mp h.table).carrier brand) rfl

theorem coercion : (Coercion.seed inner).Steady :=
  h.layer (Table.steady_iff.mp h.table).coercion rfl

end Definition.Steady

/-- A context layer's wrapping lets what runs inside it install whatever it likes. -/
theorem Installer.steady_around (a : Installer) {α : Type} {p : Prog α} (hp : p.Steady true) :
    (a.around p).Steady false := by
  refine .bind (Prog.steady_query rfl) fun alive => ?_
  cases alive with
  | false => trivial
  | true => exact hp.installed _

theorem Definition.Steady.context {inner : Definition} (h : inner.Steady) (mode : ContextMode)
    (self : DefId) : (inner.contextSeed mode self).Steady := by
  refine h.layer ((Table.steady_iff.mp h.table).context fun hp => ?_) rfl
  exact Installer.steady_around _ (Prog.Steady.mono hp)

/-- What a definition answers is steady. -/
theorem Catalog.Steady.answer {c : Catalog} (h : c.Steady) (i : DefId) (d : Definition)
    (hd : c.get? i = some d) (r : Request) (args : List Value) :
    (d.table.answer r args).Steady false :=
  Table.Of.answer (Table.steady_iff.mp (h i d hd).table) r args

end EffectLayers
