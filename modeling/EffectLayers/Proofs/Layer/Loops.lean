import EffectLayers.Proofs.Layer.Runs

/-!
# Loops

What becomes of the loops that a seed gives once layers are stacked on it. A carrier, coercion and
a context hand them on, with a body that they wrap, and so does escape control that uses the
exceptions beneath it. Escape control by signals does not: what is built on it has loops derived
anew, which run every round but the first in a continuation of the round before.

## Main definitions

* `Loop`: one call of a loop, apart from its body.
* `Loop.nested`: the loop that is derived from `bind`.
* `Options.round`, `Seed.round`: a run of a body as the layers hand it on, and as it reaches the
  seed.
* `Seed.KeepsLoops`: the loops that a seed gives are those that are invoked.
* `Seed.NestsLoops`: the loops are derived from `bind`, whatever was given.
* `Seed.catches`: what is made of the seed is given a `handle`.

## Main statements

* `Seed.loop_of_stages`: what the loops of a definition that was built do.
* `Options.keeps_loops_iff`: the options and the seeds for which every loop is kept.
-/

namespace EffectLayers

/-! ## Calls of loops -/

/-- A call of one of the two loops, apart from its body. -/
inductive Loop : Type 1 where
  | iterate (init : Value)
  | forPar (test : Test) (step : Callback) (init : Value)

namespace Loop

/-- The loop of a table. -/
def ofTable (t : Table) : Loop → Callback → Prog Value
  | iterate v, body => t .iterate body v
  | forPar test step v, body => t .forPar test body step v

/-- The loop that a seed gives. -/
def ofSeed? (s : Seed) : Loop → Option (Callback → Prog Value)
  | iterate v => (s.ops .iterate).map fun given body => given body v
  | forPar test step v => (s.ops .forPar).map fun given body => given test body step v

/-- The loop that runs every round but the first in a continuation of `bind`. -/
def nested (bind : Value → Callback → Prog Value) (lift : Value → Prog Value) :
    Loop → Callback → Prog Value
  | iterate v, body => Prog.holding body.holds (.bounded fun n => Seed.iterateFrom bind body n v)
  | forPar test step v, body => .bounded fun n => Seed.forParFrom bind lift test body step n v

theorem ofTable_of_definition? {s : Seed} {id : DefId} {d : Definition} {l : Loop}
    {given : Callback → Prog Value} (hd : s.definition? id = some d)
    (h : l.ofSeed? s = some given) : l.ofTable d.table = given := by
  cases l with
  | iterate v =>
    obtain ⟨g, hg, rfl⟩ := Option.map_eq_some_iff.mp h
    funext body
    rw [ofTable, Seed.table_given hd .iterate hg]
  | forPar test step v =>
    obtain ⟨g, hg, rfl⟩ := Option.map_eq_some_iff.mp h
    funext body
    rw [ofTable, Seed.table_given hd .forPar hg]

theorem ofTable_of_derived {s : Seed} {id : DefId} {d : Definition} {l : Loop}
    (hd : s.definition? id = some d) (h : l.ofSeed? s = none) :
    l.ofTable d.table = l.nested s.bind (d.table .pure) := by
  obtain ⟨lift, -, rfl⟩ := Option.map_eq_some_iff.mp hd
  funext body
  cases l with
  | iterate v =>
    have hops : s.ops .iterate = none := Option.map_eq_none_iff.mp h
    simp only [ofTable, nested, Seed.table, Seed.iterate, hops, Option.getD_none]
  | forPar test step v =>
    have hops : s.ops .forPar = none := Option.map_eq_none_iff.mp h
    simp only [ofTable, nested, Seed.table, Seed.forPar, hops, Option.getD_none]

end Loop

/-- The callback every run of which goes through a wrapper. -/
def Closure.wrap (wrapper : Prog Value → Prog Value) (f : Callback) : Callback :=
  f.map fun code v => wrapper (code v)

/-! ## How bodies are wrapped -/

/-- A run of a loop's body as the layers of a definition that was built hand it on: the definition
is installed, and the answer is coerced and unpacked. -/
def Options.round (o : Options) (d : Definition) (p : Prog Value) : Prog Value :=
  let installed := p.under (o.context.installer ⟨d.name, d.id⟩)
  let coerced := installed.through (d.table .coerce) o.coercion
  coerced.through (d.table .unpack) o.carrier.isSome

/-- A run of a body as it reaches the loop of a seed that is completed into `d₀`, on which `d` is
built: a context that is put back on top installs `d₀` as well. -/
def Seed.round (s : Seed) (o : Options) (d₀ d : Definition) (p : Prog Value) : Prog Value :=
  (o.round d p).under (s.reinstall.bind fun r => r.mode.installer ⟨d₀.name, d₀.id⟩)

namespace Definition

variable {inner d : Definition} {c c' : Catalog}

/-! ## One layer -/

/-- Escape control by the exceptions beneath it keeps the loops. -/
theorem loop_of_native (h : inner.withEscapeControl c = (.ok d, c'))
    (hhandle : inner.supplies .handle = true) (l : Loop) :
    l.ofTable d.table = l.ofTable inner.table := by
  obtain ⟨i, hd⟩ := definition?_of_withEscapeControl h
  rw [Escape.seed_of_handles hhandle] at hd
  cases l <;> exact Loop.ofTable_of_definition? hd rfl

/-- Escape control by signals gives neither loop: both are derived from its `bind`. -/
theorem loop_of_threaded (h : inner.withEscapeControl c = (.ok d, c'))
    (hhandle : inner.supplies .handle = false) (l : Loop) :
    l.ofTable d.table = l.nested (Escape.threaded inner).bind (inner.table .pure) := by
  obtain ⟨i, hd⟩ := definition?_of_withEscapeControl h
  rw [Escape.seed_of_not_handles hhandle] at hd
  rw [Loop.ofTable_of_derived hd (by cases l <;> rfl), Seed.table_given hd .pure rfl]

theorem loop_of_carried {brand : Option Brand} (h : inner.carried brand c = (.ok d, c'))
    (l : Loop) (body : Callback) :
    l.ofTable d.table body =
      (l.ofTable inner.table
        (body.wrap fun p => p.through (d.table .unpack) brand.isSome)).through
          (d.table .pack) brand.isSome := by
  cases brand with
  | none =>
    cases h
    rfl
  | some brand =>
    obtain ⟨i, hd⟩ := definition?_of_withCarrier h
    rw [Seed.table_given hd .pack rfl, Seed.table_given hd .unpack rfl]
    cases l <;> exact (congrFun (Loop.ofTable_of_definition? hd rfl) body).trans rfl

theorem loop_of_coercing {coercion : Bool} (h : inner.coercing coercion c = (.ok d, c'))
    (l : Loop) (body : Callback) :
    l.ofTable d.table body =
      l.ofTable inner.table (body.wrap fun p => p.through (inner.table .coerce) coercion) := by
  cases coercion with
  | false =>
    cases h
    rfl
  | true =>
    obtain ⟨i, hd⟩ := definition?_of_withCoercion h
    cases l <;> exact (congrFun (Loop.ofTable_of_definition? hd rfl) body).trans rfl

theorem loop_of_withContext {mode : ContextMode} (h : inner.withContext mode c = (.ok d, c'))
    (l : Loop) (body : Callback) :
    l.ofTable d.table body =
      l.ofTable inner.table (body.wrap (Prog.under (mode.installer ⟨d.name, d.id⟩))) := by
  by_cases hmode : mode = .off
  · subst hmode
    cases h
    rfl
  · obtain ⟨i, hd⟩ := definition?_of_withContext hmode h
    rw [name_of_contextSeed hd, Seed.id_of_definition? hd]
    cases mode with
    | off => exact absurd rfl hmode
    | runOnly | full =>
      cases l <;> exact (congrFun (Loop.ofTable_of_definition? hd rfl) body).trans rfl

theorem supplies_handle_of_withContext {mode : ContextMode}
    (h : inner.withContext mode c = (.ok d, c')) :
    d.supplies .handle = (inner.supplies .handle || mode != .off) := by
  by_cases hmode : mode = .off
  · subst hmode
    cases h
    simp
  · obtain ⟨i, hd⟩ := definition?_of_withContext hmode h
    rw [Seed.supplies_of_definition? hd]
    cases mode with
    | off => exact absurd rfl hmode
    | runOnly | full => exact (Bool.or_true _).symm

theorem supplies_pack_of_carried {brand : Brand}
    (h : inner.carried (some brand) c = (.ok d, c')) : d.supplies .pack = true := by
  obtain ⟨i, hd⟩ := definition?_of_withCarrier h
  exact Seed.supplies_given hd .pack rfl

/-- What programs go through to be packed is kept where a carrier is. -/
theorem Keeps.through_pack {mid : Definition} {brand : Option Brand} (h : d.Keeps mid)
    (hcarried : inner.carried brand c = (.ok mid, c')) (p : Prog Value) :
    p.through (mid.table .pack) brand.isSome = p.through (d.table .pack) brand.isSome := by
  cases brand with
  | none => rfl
  | some brand => rw [(h .pack rfl (supplies_pack_of_carried hcarried)).2]

/-! ## All layers -/

theorem loop_of_withLayers {o : Options} {brand : Option Brand}
    (hbrand : brand.isSome = o.carrier.isSome) (h : inner.withLayers o brand c = (.ok d, c'))
    (l : Loop) (body : Callback) :
    l.ofTable d.table body =
      (l.ofTable inner.table (body.wrap (o.round d))).through
        (d.table .pack) o.carrier.isSome := by
  obtain ⟨d₁, c₁, d₂, c₂, c₃, hcarried, hcoercing, hcontext, -⟩ := stages_of_withLayers h
  have hkeeps : d.Keeps d₁ := (keeps_of_withContext hcontext).trans (keeps_of_coercing hcoercing)
  rw [loop_of_withContext hcontext, loop_of_coercing hcoercing, loop_of_carried hcarried]
  simp only [hkeeps.through_coerce hcoercing, hkeeps.through_unpack hcarried,
    hkeeps.through_pack hcarried]
  rw [hbrand]
  rfl

end Definition

namespace Seed

variable {s : Seed} {o : Options} {c c' : Catalog} {d : Definition}

/-- A seed is completed into a definition with its own loops, the bodies of which run with the
definition installed if a context is put back on top. -/
theorem loop_of_complete {l : Loop} {given : Callback → Prog Value}
    (hgiven : l.ofSeed? s = some given) (h : s.complete c = (.ok d, c')) (body : Callback) :
    l.ofTable d.table body =
      given (body.wrap
        (Prog.under (s.reinstall.bind fun r => r.mode.installer ⟨d.name, d.id⟩))) := by
  obtain ⟨inner, i, c₁, c₂, hinner, hcontext⟩ := context_of_complete h
  rw [Definition.loop_of_withContext hcontext, Loop.ofTable_of_definition? hinner hgiven,
    s.bind_reinstall (f := fun mode => mode.installer ⟨d.name, d.id⟩) rfl]

/-- Whether the definition that the seed is completed into is given a `handle`: one of the seed, or
that of a context that is put back on top. -/
def catches (s : Seed) : Bool :=
  s.supplies .handle || s.reinstall.any fun r => r.mode != .off

theorem supplies_handle_of_complete (h : s.complete c = (.ok d, c')) :
    d.supplies .handle = s.catches := by
  obtain ⟨inner, i, c₁, c₂, hinner, hcontext⟩ := context_of_complete h
  rw [Definition.supplies_handle_of_withContext hcontext, supplies_of_definition? hinner, catches,
    restoring]
  cases s.reinstall <;> rfl

/-- Building completes the seed, adds escape control if it is asked for, and hands bodies on to
what it has then. What that answers is packed. -/
theorem loop_of_stages (h : s.build o c = (.ok d, c')) :
    ∃ d₀ c₀ e c₁, s.complete c = (.ok d₀, c₀) ∧ d₀.escaping o.escape c₀ = (.ok e, c₁) ∧
      ∀ l body, Loop.ofTable d.table l body =
        (l.ofTable e.table (body.wrap (o.round d))).through (d.table .pack) o.carrier.isSome := by
  obtain ⟨d₀, c₀, e, c₁, brand, c₂, hcomplete, hescaping, rfl, h⟩ := stages_of_build h
  exact ⟨d₀, c₀, e, c₁, hcomplete, hescaping, Definition.loop_of_withLayers Option.isSome_map h⟩

/-! ## Where they are kept -/

/-- The loops that a seed gives are those that are invoked: once, on the body that the layers
wrapped. What they answer is packed. -/
def KeepsLoops (s : Seed) (o : Options) : Prop :=
  ∀ c d c', s.build o c = (.ok d, c') → ∃ d₀ c₀, s.complete c = (.ok d₀, c₀) ∧
    ∀ l given, Loop.ofSeed? s l = some given → ∀ body,
      l.ofTable d.table body =
        (given (body.wrap (s.round o d₀ d))).through (d.table .pack) o.carrier.isSome

/-- The loops run all rounds but the first in continuations of the `bind` that escape control
derives, whatever the seed gives. -/
def NestsLoops (s : Seed) (o : Options) : Prop :=
  ∀ c d c', s.build o c = (.ok d, c') → ∃ d₀ c₀, s.complete c = (.ok d₀, c₀) ∧
    ∀ l body, Loop.ofTable d.table l body =
      (l.nested (Escape.threaded d₀).bind (d₀.table .pure) (body.wrap (o.round d))).through
        (d.table .pack) o.carrier.isSome

/-- They are kept unless escape control has to thread signals. -/
theorem keepsLoops_of_catches (h : o.escape = true → s.catches = true) : s.KeepsLoops o := by
  intro c d c' hbuild
  obtain ⟨d₀, c₀, e, c₁, hcomplete, hescaping, hlayers⟩ := loop_of_stages hbuild
  refine ⟨d₀, c₀, hcomplete, fun l given hgiven body => ?_⟩
  have he : l.ofTable e.table = l.ofTable d₀.table := by
    cases hescape : o.escape with
    | false =>
      rw [hescape] at hescaping
      cases hescaping
      rfl
    | true =>
      rw [hescape] at hescaping
      have hhandle := (supplies_handle_of_complete hcomplete).trans (h hescape)
      exact Definition.loop_of_native hescaping hhandle l
  rw [hlayers, he, loop_of_complete hgiven hcomplete]
  rfl

/-- They are derived anew if it does. -/
theorem nestsLoops_of_catches_eq_false (ho : o.escape = true) (h : s.catches = false) :
    s.NestsLoops o := by
  intro c d c' hbuild
  obtain ⟨d₀, c₀, e, c₁, hcomplete, hescaping, hlayers⟩ := loop_of_stages hbuild
  refine ⟨d₀, c₀, hcomplete, fun l body => ?_⟩
  rw [ho] at hescaping
  have hhandle := (supplies_handle_of_complete hcomplete).trans h
  rw [hlayers, Definition.loop_of_threaded hescaping hhandle]

end Seed

/-! ## Where they are lost -/

namespace Effects

/-- Plain values, the loops of which answer what they start with, without running anything. -/
def still : Seed := (identity.set .iterate fun _ v => pure v).set .forPar fun _ _ _ v => pure v

theorem exists_build_still (o : Options) :
    ∃ d c, still.build o .empty = (.ok d, c) ∧ ∀ v, ∃ packed, d.table .pack v = pure packed := by
  obtain ⟨escape, carrier, coercion, context, dispatch⟩ := o
  cases escape <;> cases carrier <;> cases coercion <;> cases context <;> cases dispatch <;>
    exact ⟨_, _, rfl, fun v => ⟨_, rfl⟩⟩

/-- With escape control its loops run their bodies. -/
theorem not_keepsLoops_still {o : Options} (ho : o.escape = true) : ¬ still.KeepsLoops o := by
  intro h
  obtain ⟨d, c, hbuild, hpack⟩ := exists_build_still o
  obtain ⟨packed, hpacked⟩ := hpack .unit
  obtain ⟨d₀, c₀, -, hkept⟩ := h .empty d c hbuild
  obtain ⟨d₁, c₁, -, hnested⟩ := Seed.nestsLoops_of_catches_eq_false ho rfl .empty d c hbuild
  have hloop := (hnested (.forPar { code := fun _ => pure false } { code := pure } .unit)
    { code := pure }).symm.trans (hkept _ _ rfl _)
  cases hcarrier : o.carrier.isSome with
  | false =>
    rw [hcarrier] at hloop
    cases hloop
  | true =>
    rw [hcarrier] at hloop
    cases hloop.trans hpacked

end Effects

/-- The options for which every loop that is given is the one that is invoked are those without
escape control. With it the loops are kept if what the seed is completed into is given a `handle`,
and are derived from `bind` if it is not. -/
theorem Options.keeps_loops_iff (o : Options) :
    ((∀ s : Seed, s.supplies .iterate = true → s.supplies .forPar = true → s.KeepsLoops o) ↔
      o.escape = false) ∧
    (∀ s : Seed, s.catches = true → s.KeepsLoops o) ∧
    (o.escape = true → ∀ s : Seed, s.catches = false → s.NestsLoops o) := by
  refine ⟨⟨fun h => ?_, fun ho s _ _ => ?_⟩, fun s hs => ?_, fun ho s hs => ?_⟩
  · exact Bool.eq_false_iff.mpr fun ho => Effects.not_keepsLoops_still ho (h Effects.still rfl rfl)
  · exact Seed.keepsLoops_of_catches fun ho' => absurd (ho.symm.trans ho') Bool.false_ne_true
  · exact Seed.keepsLoops_of_catches fun _ => hs
  · exact Seed.nestsLoops_of_catches_eq_false ho hs

/-- With every other layer, and with all of them on exceptions of their own, loops answer what they
start with, whatever their test, body and step are. -/
theorem Options.keeps_loops_still :
    (∃ d c, Effects.still.build ⟨false, some "m", true, .full, .home⟩ .empty = (.ok d, c) ∧
      ∀ test body step v, d.table .forPar test body step v = d.table .pack v) ∧
    ∃ d c, (Effects.still.set .handle fun a _ => pure a).build .standard .empty = (.ok d, c) ∧
      ∀ test body step v, d.table .forPar test body step v = pure v := by
  constructor
  · obtain ⟨d, c, hbuild, -⟩ := Effects.exists_build_still ⟨false, some "m", true, .full, .home⟩
    have hkeeps := (keeps_loops_iff ⟨false, some "m", true, .full, .home⟩).1.mpr rfl
      Effects.still rfl rfl
    obtain ⟨d₀, c₀, -, hloop⟩ := hkeeps .empty d c hbuild
    exact ⟨d, c, hbuild, fun test body step v => hloop (.forPar test step v) _ rfl body⟩
  · obtain ⟨d, c, hbuild⟩ : ∃ d c,
        (Effects.still.set .handle fun a _ => pure a).build .standard .empty = (.ok d, c) :=
      ⟨_, _, rfl⟩
    have hkeeps := (keeps_loops_iff .standard).2.1 (Effects.still.set .handle fun a _ => pure a) rfl
    obtain ⟨d₀, c₀, -, hloop⟩ := hkeeps .empty d c hbuild
    exact ⟨d, c, hbuild, fun test body step v => hloop (.forPar test step v) _ rfl body⟩

/-- With the standard options a loop from `0` to `1` is run, although the loop of the seed answers
`0` without running anything. -/
theorem Effects.loops_lost_still :
    ¬ (∀ (s : Seed) (o : Options), s.supplies .iterate = true → s.supplies .forPar = true →
      s.KeepsLoops o) ∧
    still.builds .standard .empty (fun d c =>
      let test : Test := { code := fun v => pure (v == .int 0) }
      let step : Callback := { code := fun _ => pure (.int 1) }
      match (d.table .forPar test { code := pure } step (.int 0)).run c 2 (.hosting d.id) with
      | .finished (.ok v) _ => v == .int 1
      | _ => false) = true := by
  refine ⟨fun h => not_keepsLoops_still rfl (h still .standard rfl rfl), ?_⟩
  decide +kernel

end EffectLayers
