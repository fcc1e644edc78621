import EffectLayers.Proofs.Layer.Override
import EffectLayers.Proofs.Layer.Stack

/-!
# Runs

What becomes of the `run` that a seed gives once layers are stacked on it. A carrier, coercion and
a context hand it on, with a thunk that they wrap. Escape control does not: what is built on it runs
its thunks itself.

## Main definitions

* `Options.thunk`, `Seed.thunk`: a thunk as the layers hand it on, and as it reaches the seed.
* `Seed.KeepsRun`: the `run` that a seed gives is the one that is invoked.

## Main statements

* `Seed.run_of_build_escaping`: what `run` of a definition with escape control does.
* `Options.keeps_run_iff`: the options for which every `run` is kept.
-/

namespace EffectLayers

/-! ## How thunks are wrapped -/

/-- What a context layer installs around the thunk of `run`, if its definition is the one
given. -/
def ContextMode.runner (a : Installer) : ContextMode → Option Installer
  | off => none
  | _ => some a

/-- A program whose answer goes through an operation, if a layer for it was asked for. -/
def Prog.through (k : Value → Prog Value) (p : Prog Value) : Bool → Prog Value
  | true => do k (← p)
  | false => p

/-- A thunk as the layers of a definition that was built hand it on: it runs with the definition
installed, and its answer is coerced and unpacked. -/
def Options.thunk (o : Options) (d : Definition) (p : Prog Value) : Prog Value :=
  let installed := p.under (o.context.runner ⟨d.name, d.id⟩)
  let coerced := installed.through (d.table .coerce) o.coercion
  coerced.through (d.table .unpack) o.carrier.isSome

/-- A thunk as it reaches the `run` of a seed that is completed into `d₀`, on which `d` is built:
a context that is put back on top installs `d₀` as well. -/
def Seed.thunk (s : Seed) (o : Options) (d₀ d : Definition) (p : Prog Value) : Prog Value :=
  (o.thunk d p).under (s.reinstall.bind fun r => r.mode.runner ⟨d₀.name, d₀.id⟩)

namespace Definition

variable {inner d : Definition} {id : DefId} {c c' : Catalog} {f : Action}

/-! ## One layer -/

/-- Nothing of the `run` beneath escape control is left: the thunk is simply run. -/
theorem run_of_escaping (h : inner.withEscapeControl c = (.ok d, c')) :
    d.table .run f = f.run := by
  obtain ⟨i, hd⟩ := definition?_of_withEscapeControl h
  obtain ⟨lift, -, rfl⟩ := Option.map_eq_some_iff.mp hd
  have hrun : (Escape.seed inner).ops .run = none := by
    unfold Escape.seed
    split <;> rfl
  have hreify : (Escape.seed inner).ops .reify = none := by
    unfold Escape.seed
    split <;> rfl
  simp only [Seed.table, Seed.run, Seed.reify, hrun, hreify, Option.getD_none]

theorem run_of_carried {brand : Option Brand} (h : inner.carried brand c = (.ok d, c')) :
    d.table .run f =
      inner.table .run (f.map fun p => p.through (d.table .unpack) brand.isSome) := by
  cases brand with
  | none =>
    cases h
    rfl
  | some brand =>
    obtain ⟨i, hd⟩ := definition?_of_withCarrier h
    rw [Seed.table_given hd .run rfl, Seed.table_given hd .unpack rfl]
    rfl

theorem run_of_coercing {coercion : Bool} (h : inner.coercing coercion c = (.ok d, c')) :
    d.table .run f =
      inner.table .run (f.map fun p => p.through (inner.table .coerce) coercion) := by
  cases coercion with
  | false =>
    cases h
    rfl
  | true =>
    obtain ⟨i, hd⟩ := definition?_of_withCoercion h
    rw [Seed.table_given hd .run rfl]
    rfl

theorem run_of_withContext {mode : ContextMode} (h : inner.withContext mode c = (.ok d, c')) :
    d.table .run f = inner.table .run (f.map (Prog.under (mode.runner ⟨d.name, d.id⟩))) := by
  by_cases hmode : mode = .off
  · subst hmode
    cases h
    rfl
  · obtain ⟨i, hd⟩ := definition?_of_withContext hmode h
    rw [name_of_contextSeed hd, Seed.id_of_definition? hd]
    cases mode with
    | off => exact absurd rfl hmode
    | runOnly | full => exact congrFun (Seed.table_given hd .run rfl) f

/-! ## Constructors that layers keep -/

/-- Coercion and a context keep the constructors that were given beneath them. -/
def Keeps (outer inner : Definition) : Prop :=
  ∀ op, Seed.keeps op = true → inner.supplies op = true →
    outer.supplies op = true ∧ outer.table op = inner.table op

theorem Keeps.refl (d : Definition) : d.Keeps d := fun _ _ h => ⟨h, rfl⟩

theorem Keeps.trans {outer mid inner : Definition} (h : outer.Keeps mid) (h' : mid.Keeps inner) :
    outer.Keeps inner := by
  intro op hop hinner
  obtain ⟨hmid, htable'⟩ := h' op hop hinner
  obtain ⟨houter, htable⟩ := h op hop hmid
  exact ⟨houter, htable.trans htable'⟩

theorem keeps_of_ops {s : Seed} (layer : String) (hd : s.definition? id = some d)
    (hs : ∀ op, Seed.keeps op = true → s.ops op = (Seed.keeping inner layer).ops op) :
    d.Keeps inner := by
  intro op hop hinner
  obtain ⟨hsupplies, htable⟩ := kept_of_definition? layer op hd hop (hs op hop)
  exact ⟨hsupplies.trans hinner, htable hinner⟩

theorem keeps_of_coercing {coercion : Bool} (h : inner.coercing coercion c = (.ok d, c')) :
    d.Keeps inner := by
  cases coercion with
  | false =>
    cases h
    exact .refl _
  | true =>
    obtain ⟨i, hd⟩ := definition?_of_withCoercion h
    refine keeps_of_ops "coerce" hd fun op hop => ?_
    cases op <;> first | contradiction | rfl

theorem keeps_of_withContext {mode : ContextMode} (h : inner.withContext mode c = (.ok d, c')) :
    d.Keeps inner := by
  by_cases hmode : mode = .off
  · subst hmode
    cases h
    exact .refl _
  · obtain ⟨i, hd⟩ := definition?_of_withContext hmode h
    refine keeps_of_ops "context" hd fun op hop => ?_
    cases op <;> first | contradiction | (cases mode <;> rfl)

theorem supplies_coerce_of_coercing (h : inner.coercing true c = (.ok d, c')) :
    inner.supplies .coerce = true := by
  rw [coercing, withCoercion] at h
  split at h
  · assumption
  · cases h

theorem supplies_unpack_of_carried {brand : Brand}
    (h : inner.carried (some brand) c = (.ok d, c')) : d.supplies .unpack = true := by
  obtain ⟨i, hd⟩ := definition?_of_withCarrier h
  exact Seed.supplies_given hd .unpack rfl

/-- What programs go through to be coerced is kept where coercion is. -/
theorem Keeps.through_coerce {mid e : Definition} {coercion : Bool} (h : d.Keeps mid)
    (hcoercing : mid.coercing coercion c = (.ok e, c')) (p : Prog Value) :
    p.through (mid.table .coerce) coercion = p.through (d.table .coerce) coercion := by
  cases coercion with
  | false => rfl
  | true => rw [(h .coerce rfl (supplies_coerce_of_coercing hcoercing)).2]

/-- What programs go through to be unpacked is kept where a carrier is. -/
theorem Keeps.through_unpack {mid : Definition} {brand : Option Brand} (h : d.Keeps mid)
    (hcarried : inner.carried brand c = (.ok mid, c')) (p : Prog Value) :
    p.through (mid.table .unpack) brand.isSome = p.through (d.table .unpack) brand.isSome := by
  cases brand with
  | none => rfl
  | some brand => rw [(h .unpack rfl (supplies_unpack_of_carried hcarried)).2]

/-! ## All layers -/

theorem run_of_withLayers {o : Options} {brand : Option Brand}
    (hbrand : brand.isSome = o.carrier.isSome) (h : inner.withLayers o brand c = (.ok d, c')) :
    d.table .run f = inner.table .run (f.map (o.thunk d)) := by
  obtain ⟨d₁, c₁, d₂, c₂, c₃, hcarried, hcoercing, hcontext, -⟩ := stages_of_withLayers h
  have hkeeps : d.Keeps d₁ := (keeps_of_withContext hcontext).trans (keeps_of_coercing hcoercing)
  rw [run_of_withContext hcontext, run_of_coercing hcoercing, run_of_carried hcarried]
  simp only [hkeeps.through_coerce hcoercing, hkeeps.through_unpack hcarried]
  rw [hbrand]
  rfl

end Definition

namespace Seed

variable {s : Seed} {o : Options} {c c' : Catalog} {d : Definition}

/-- A seed is completed into a definition with its own `run`, the thunk of which runs with the
definition installed if a context is put back on top. -/
theorem run_of_complete {g : Action → Prog Value} (hrun : s.ops .run = some g)
    (h : s.complete c = (.ok d, c')) (f : Action) :
    d.table .run f =
      g (f.map (Prog.under (s.reinstall.bind fun r => r.mode.runner ⟨d.name, d.id⟩))) := by
  obtain ⟨inner, i, c₁, c₂, hinner, hcontext⟩ := context_of_complete h
  rw [Definition.run_of_withContext hcontext, table_given hinner .run hrun,
    s.bind_reinstall (f := fun mode => mode.runner ⟨d.name, d.id⟩) rfl]

/-- Building completes the seed, adds escape control if it is asked for, and hands thunks on to
what it has then. -/
theorem run_of_stages (h : s.build o c = (.ok d, c')) :
    ∃ d₀ c₀ e c₁, s.complete c = (.ok d₀, c₀) ∧ d₀.escaping o.escape c₀ = (.ok e, c₁) ∧
      ∀ f, d.table .run f = e.table .run (f.map (o.thunk d)) := by
  obtain ⟨d₀, c₀, e, c₁, brand, c₂, hcomplete, hescaping, rfl, h⟩ := stages_of_build h
  exact ⟨d₀, c₀, e, c₁, hcomplete, hescaping,
    fun f => Definition.run_of_withLayers Option.isSome_map h⟩

/-- The `run` that a seed gives is the one that is invoked: once, on the thunk that the layers
wrapped, and for its answer. -/
def KeepsRun (s : Seed) (o : Options) : Prop :=
  ∀ g, s.ops .run = some g → ∀ c d c', s.build o c = (.ok d, c') →
    ∃ d₀ c₀, s.complete c = (.ok d₀, c₀) ∧
      ∀ f, d.table .run f = g (f.map (s.thunk o d₀ d))

theorem keepsRun_of_escape_eq_false (s : Seed) (ho : o.escape = false) : s.KeepsRun o := by
  intro g hrun c d c' h
  obtain ⟨d₀, c₀, e, c₁, hcomplete, hescaping, hlayers⟩ := run_of_stages h
  rw [ho] at hescaping
  cases hescaping
  refine ⟨d₀, c₀, hcomplete, fun f => ?_⟩
  rw [hlayers, run_of_complete hrun hcomplete]
  rfl

/-- On top of escape control the thunk that the layers wrapped is simply run. -/
theorem run_of_build_escaping (ho : o.escape = true) (h : s.build o c = (.ok d, c'))
    (f : Action) : d.table .run f = (f.map (o.thunk d)).run := by
  obtain ⟨d₀, c₀, e, c₁, -, hescaping, hlayers⟩ := run_of_stages h
  rw [ho] at hescaping
  rw [hlayers, Definition.run_of_escaping hescaping]

end Seed

/-! ## Where it is lost -/

namespace Effects

/-- Plain values, the `run` of which answers `()` without running its thunk. -/
def idle : Seed := identity.set .run fun _ => pure .unit

theorem exists_build_idle (o : Options) : ∃ d c, idle.build o .empty = (.ok d, c) := by
  obtain ⟨escape, carrier, coercion, context, dispatch⟩ := o
  cases escape <;> cases carrier <;> cases coercion <;> cases context <;> cases dispatch <;>
    exact ⟨_, _, rfl⟩

/-- With escape control its thunks are run. -/
theorem not_keepsRun_idle {o : Options} (ho : o.escape = true) : ¬ idle.KeepsRun o := by
  intro h
  obtain ⟨d, c, hbuild⟩ := exists_build_idle o
  obtain ⟨d₀, c₀, -, hkept⟩ := h _ rfl .empty d c hbuild
  have hrun := (Seed.run_of_build_escaping ho hbuild ⟨pure .unit, { }⟩).symm.trans (hkept _)
  cases hrun

end Effects

/-- The options for which every `run` that is given is the one that is invoked are those without
escape control. With it, no seed's `run` is: the thunk that the layers wrapped is simply run. -/
theorem Options.keeps_run_iff (o : Options) :
    ((∀ s : Seed, s.KeepsRun o) ↔ o.escape = false) ∧
      (o.escape = true → ∀ s c d c', Seed.build s o c = (.ok d, c') →
        ∀ f, d.table .run f = (f.map (o.thunk d)).run) := by
  refine ⟨⟨fun h => ?_, fun ho s => s.keepsRun_of_escape_eq_false ho⟩, fun ho s c d c' h f => ?_⟩
  · exact Bool.eq_false_iff.mpr fun ho => Effects.not_keepsRun_idle ho (h Effects.idle)
  · exact Seed.run_of_build_escaping ho h f

/-- With every other layer the seed's `run` answers, whatever the thunk is. -/
theorem Options.keeps_run_without_escape :
    ∃ d c, Effects.idle.build ⟨false, some "m", true, .full, .home⟩ .empty = (.ok d, c) ∧
      ∀ f, d.table .run f = pure .unit := by
  obtain ⟨d, c, hbuild⟩ := Effects.exists_build_idle ⟨false, some "m", true, .full, .home⟩
  have hkeeps := (keeps_run_iff ⟨false, some "m", true, .full, .home⟩).1.mpr rfl Effects.idle
  obtain ⟨d₀, c₀, -, hrun⟩ := hkeeps _ rfl .empty d c hbuild
  exact ⟨d, c, hbuild, hrun⟩

/-- With the standard options a thunk of `1` is run, and its answer is that of `run`, although the
`run` of the seed answers `()` without running it. -/
theorem Effects.run_lost_idle :
    ¬ (∀ (s : Seed) (o : Options), s.KeepsRun o) ∧
      idle.builds .standard .empty (fun d c =>
        let one : Action := ⟨pure (.int 1), { }⟩
        (d.table .run one).answers c (.hosting d.id) (.int 1)) = true := by
  refine ⟨fun h => not_keepsRun_idle rfl (h idle .standard), ?_⟩
  decide +kernel

end EffectLayers
