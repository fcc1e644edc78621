import EffectLayers.Effects
import EffectLayers.Proofs.Assembly
import EffectLayers.Proofs.Program.Computes

/-!
# Callbacks of a context layer

Whatever the definition beneath a full context layer does with the callbacks that it is handed, and
whenever it does so, they run with the definition of the layer installed as long as that is alive.
Once it is gone they do not run at all.

## Main definitions

* `Definition.Hosts`: a program that does what another one does with a definition installed.
* `Definition.HostsCall`, `Definition.HostsRun`, `Definition.HostsSource`: closures and sources that
  do.
* `Operation.Hosted`: an operation that hands its callbacks on so.

## Main statements

* `Installer.hosts_around`: what runs with a definition installed.
* `Definition.callbacks_hosted`: the operations of a full context layer.
-/

namespace EffectLayers

universe u

namespace Definition

/-! ## Running with a definition installed -/

section Hosting

variable (d inner : Definition) (c₀ : Catalog) {α : Type}

/-- From every world in which `d` is alive, whatever is installed there, the program `q` runs `p`
with `d` installed and leaves the frame as it was. If `d` is gone it runs nothing, changes nothing,
and says that the context on `inner` is detached. -/
structure Hosts (p q : Prog α) : Prop where
  alive : ∀ c b w, c₀.Grows c → w.alive c d.id = true → ∃ w₁ : World,
    w₁.ambient.bind c.get? = some d ∧ w₁ = { w with toFrame := w₁.toFrame } ∧
      q.run c b w = (p.run c b w₁).onward fun r w₂ => .finished r { w₂ with toFrame := w.toFrame }
  gone : ∀ c b w, w.alive c d.id = false →
    q.run c b w = .finished (.error (.detached (inner.name ++ "+context"))) w

/-- The closure `g` runs `f` with `d` installed, on every argument. It holds nothing more. -/
structure HostsCall {A : Type u} (f g : Closure (A → Prog α)) : Prop where
  holds : g.holds = f.holds
  code : ∀ x, d.Hosts inner c₀ (f.code x) (g.code x)

/-- The closure `g` runs `f` with `d` installed. It holds nothing more. -/
structure HostsRun (f g : Closure (Prog α)) : Prop where
  holds : g.holds = f.holds
  code : d.Hosts inner c₀ f.code g.code

/-- The second source starts the first one, and resumes it in every state that it ever answers,
with `d` installed. -/
inductive HostsSource : Source → Source → Prop
  | mk {State : Type} {start start' : Closure (Prog State)}
      {step step' : State → Value → Prog (Option (Value × State))} {holds : State → Holding}
      (hstart : d.HostsRun inner c₀ start start')
      (hstep : ∀ s v, d.Hosts inner c₀ (step s v) (step' s v)) :
      HostsSource ⟨State, start, step, holds⟩ ⟨State, start', step', holds⟩

end Hosting

end Definition

/-- The operation hands its callbacks to the one beneath it so that they run with `d` installed.
Of a loop this is the body. -/
def Operation.Hosted (d inner : Definition) (c₀ : Catalog) :
    (op : Operation) → Signature op → Signature op → Prop
  | .bind, outer, given | .handle, outer, given =>
    ∀ f, ∃ g, d.HostsCall inner c₀ f g ∧ ∀ a, outer a f = given a g
  | .cleanup, outer, given => ∀ f, ∃ g, d.HostsRun inner c₀ f g ∧ ∀ a, outer a f = given a g
  | .iterate, outer, given => ∀ f, ∃ g, d.HostsCall inner c₀ f g ∧ ∀ v, outer f v = given g v
  | .forPar, outer, given =>
    ∀ body, ∃ g, d.HostsCall inner c₀ body g ∧
      ∀ test step v, outer test body step v = given test g step v
  | .block, outer, given | .scope, outer, given =>
    ∀ body, ∃ g, d.HostsCall inner c₀ body g ∧ outer body = given g
  | .seq, outer, given => ∀ source, ∃ g, d.HostsSource inner c₀ source g ∧ outer source = given g
  | .run, outer, given => ∀ f, ∃ g, d.HostsRun inner c₀ f g ∧ outer f = given g
  | _, _, _ => True

namespace Installer

variable {d inner : Definition} {c₀ : Catalog} {a : Installer} {α : Type}

theorem run_around_alive {c : Catalog} {w : World} (h : w.alive c a.target = true) (b : Nat)
    (p : Prog α) : (a.around p).run c b w =
      (p.run c b (w.entering (.installed a.target))).onward
        fun r w₂ => .finished r { w₂ with toFrame := w.toFrame } := by
  rw [around, Prog.run_bind, Prog.run_query]
  simp only [Outcome.bind, Query.answer, h, if_true, Prog.run_inside]
  rfl

theorem run_around_gone {c : Catalog} {w : World} (h : w.alive c a.target = false) (b : Nat)
    (p : Prog α) : (a.around p).run c b w = .finished (.error (.detached a.name)) w := by
  rw [around, Prog.run_bind, Prog.run_query]
  simp only [Outcome.bind, Query.answer, h, Bool.false_eq_true, if_false, Prog.run_throw]

/-- A program runs with the definition of the installer installed. -/
theorem hosts_around (hd : d.KnownIn c₀) (hname : a.name = inner.name ++ "+context")
    (htarget : a.target = d.id) (p : Prog α) : d.Hosts inner c₀ p (a.around p) := by
  constructor
  case alive =>
    intro c b w hc halive
    rw [← htarget] at halive
    refine ⟨w.entering (.installed a.target), ?_, rfl, run_around_alive halive b p⟩
    rw [htarget]
    exact hd.mono hc
  case gone =>
    intro c b w hgone
    rw [← htarget] at hgone
    rw [run_around_gone hgone, hname]

section

variable (hd : d.KnownIn c₀) (hname : a.name = inner.name ++ "+context") (htarget : a.target = d.id)
include hd hname htarget

theorem hosts_callback (f : Callback) : d.HostsCall inner c₀ f (a.callback f) :=
  ⟨rfl, fun v => hosts_around hd hname htarget (f.code v)⟩

theorem hosts_body (f : Body) : d.HostsCall inner c₀ f (a.body f) :=
  ⟨rfl, fun escape => hosts_around hd hname htarget (f.code escape)⟩

theorem hosts_map_around (f : Closure (Prog α)) : d.HostsRun inner c₀ f (f.map a.around) :=
  ⟨rfl, hosts_around hd hname htarget f.code⟩

theorem hosts_source (source : Source) : d.HostsSource inner c₀ source (a.source source) :=
  .mk (hosts_map_around hd hname htarget source.start)
    fun s v => hosts_around hd hname htarget (source.step s v)

end

end Installer

namespace Definition

variable {d inner : Definition} {c₀ : Catalog}

/-- On top of every definition there is a full context layer, whose operations hand their callbacks
on so that they run with the definition of the layer installed, if it is alive. -/
theorem callbacks_hosted (inner : Definition) (c : Catalog) :
    ∃ d c', inner.withContext .full c = (.ok d, c') ∧ d.KnownIn c' ∧
      ∀ op, Operation.Hosted d inner c' op (d.table op) (inner.table op) := by
  suffices h : (inner.withContext .full).Yields c fun d c' => d.KnownIn c' ∧
      ∀ op, Operation.Hosted d inner c' op (d.table op) (inner.table op) by
    obtain ⟨d, c', hrun, -, hd⟩ := h
    exact ⟨d, c', hrun, hd⟩
  have hmode : ContextMode.full ≠ .off := nofun
  rw [withContext_of_ne_off inner hmode]
  refine Seed.yields_assembleWith rfl fun d self hd hknown => ⟨hknown, fun op => ?_⟩
  obtain rfl : d.id = self := Seed.id_of_definition? hd
  let a : Installer := ⟨inner.name ++ "+context", d.id⟩
  cases op with
  | bind | handle | iterate =>
    rw [Seed.table_given hd _ rfl]
    exact fun f => ⟨a.callback f, a.hosts_callback hknown rfl rfl f, fun _ => rfl⟩
  | forPar =>
    rw [Seed.table_given hd _ rfl]
    exact fun body => ⟨a.callback body, a.hosts_callback hknown rfl rfl body, fun _ _ _ => rfl⟩
  | cleanup =>
    rw [Seed.table_given hd _ rfl]
    exact fun f => ⟨f.map a.around, a.hosts_map_around hknown rfl rfl f, fun _ => rfl⟩
  | block | scope =>
    rw [Seed.table_given hd _ rfl]
    exact fun body => ⟨a.body body, a.hosts_body hknown rfl rfl body, rfl⟩
  | seq =>
    rw [Seed.table_given hd _ rfl]
    exact fun source => ⟨a.source source, a.hosts_source hknown rfl rfl source, rfl⟩
  | run =>
    rw [Seed.table_given hd _ rfl]
    exact fun f => ⟨f.map a.around, a.hosts_map_around hknown rfl rfl f, rfl⟩
  | _ => trivial

/-- A continuation on plain values sees the definition that called it where that is in use, and does
not run in an empty world. -/
theorem callbacks_hosted_bind :
    ∃ inner c₀ d c, Effects.identity.complete .empty = (.ok inner, c₀) ∧
      inner.withContext .full c₀ = (.ok d, c) ∧ ∀ (k : Value → Prog Value) (a : Value) (b : Nat),
        (d.table .bind a { code := k }).run c b .empty =
          .finished (.error (.detached "identity+context")) .empty ∧
        ∃ w₁ : World, w₁.ambient.bind c.get? = some d ∧
          (d.table .bind a { code := k }).run c b (.hosting d.id) =
            ((k a).run c b w₁).onward fun r w₂ =>
              .finished r { w₂ with toFrame := (World.hosting d.id).toFrame } := by
  obtain ⟨inner, c₀, hcomplete, hname, hbind⟩ : ∃ inner c₀,
      Effects.identity.complete .empty = (.ok inner, c₀) ∧ inner.name = "identity" ∧
        inner.table .bind = fun a f => f.call a := ⟨_, _, rfl, rfl, rfl⟩
  obtain ⟨d, c, hcontext, hknown, hhosted⟩ := callbacks_hosted inner c₀
  refine ⟨inner, c₀, d, c, hcomplete, hcontext, fun k a b => ?_⟩
  obtain ⟨g, ⟨hholds, hcode⟩, houter⟩ := hhosted .bind { code := k }
  have hrun (w : World) : (d.table .bind a { code := k }).run c b w =
      ((g.code a).run c b (w.entering (.holding { }))).onward fun r w' =>
        .finished r (w'.leaving (.holding { }) w.toFrame) := by
    rw [houter, hbind]
    change ((Prog.holding g.holds (g.code a)).run c b w) = _
    rw [hholds]
    exact Prog.run_inside c b w _ _
  constructor
  · rw [hrun, (hcode a).gone c b _ rfl, hname]
    rfl
  · have halive : ((World.hosting d.id).entering (.holding { })).alive c d.id = true :=
      (World.alive_iff c _ _).mpr
        ⟨d.id, .inl (by simp [World.roots, World.entering, Scope.enter, World.hosting]),
          mem_lineage hknown⟩
    obtain ⟨w₁, hambient, -, hinstalled⟩ := (hcode a).alive c b _ (.refl c) halive
    refine ⟨w₁, hambient, ?_⟩
    rw [hrun, hinstalled]
    cases (k a).run c b w₁ <;> rfl

end Definition

end EffectLayers
