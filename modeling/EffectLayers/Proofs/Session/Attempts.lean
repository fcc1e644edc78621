import EffectLayers.Proofs.Control.Behaves
import EffectLayers.Proofs.Layer.Exceptions
import EffectLayers.Proofs.Program.Paired
import EffectLayers.Proofs.Session.Ambient

/-!
# Attempts

An attempt ends with a raised exception in place of the fault of its program. That skips
continuations and reaches the handler, whether exceptions are signals in the results or are those of
the definition itself, and under every layer. What was installed before is so again.

## Main definitions

* `Effects.Recovering`: the ready-made effects with escape control.
* `Prog.EndsAs`: a program ends as another one does, with the definition installed meanwhile.
* `Definition.Attempts`: what attempts answer, and what handlers and continuations make of it.

## Main statements

* `Definition.Raises.native`, `Effects.raises_looping`: both ways of escape control on top of each
  other keep what exceptions skip and reach.
* `Effects.Recovering.raises`: exceptions of everything that is built on them.
* `Ambient.run_attempt`: the run of an attempt.
* `Effects.Recovering.attempts`: attempts recover every fault.
-/

namespace EffectLayers

open Prog.Once (Translates)

/-! ## Exceptions -/

namespace Definition

variable {d e : Definition} {c : Catalog} {host : DefId} {E : Value → Prop} {x : Option DefId}

/-- What exceptions skip and reach depends on four operations. -/
theorem Raises.of_table_eq (h : e.Raises c host E x) (hraise : d.table .raise = e.table .raise)
    (hbind : d.table .bind = e.table .bind) (hmap : d.table .map = e.table .map)
    (hhandle : d.table .handle = e.table .handle) : d.Raises c host E x := by
  intro v hv
  obtain ⟨a, ha, halike, hskips, hreaches⟩ := h v hv
  refine ⟨a, ha, hraise ▸ halike, ⟨hbind ▸ hskips.bind, hmap ▸ hskips.map⟩, .of_once ?_⟩
  rw [hhandle]
  exact hreaches.once

/-- Where the definition has handlers of its own, escape control keeps its exceptions: only signals
are raised again by the handler. -/
theorem Raises.native (h : d.Raises c host E x) (hd : d.supplies .handle = true) {i : DefId}
    (he : (Escape.seed d).definition? i = some e) : e.Raises c host E x := by
  intro v hv
  obtain ⟨a, ha, halike, hskips, hreaches⟩ := h v hv
  refine ⟨a, ha, ?_, ⟨?_, ?_⟩, .of_once fun f => ?_⟩
  · rw [table_native hd he .raise rfl]
    exact halike
  · rw [table_native hd he .bind rfl]
    exact hskips.bind
  · rw [table_native hd he .map rfl]
    exact hskips.map
  · let g : Callback := f.map fun code v => if v.isSignal then d.table .raise v else code v
    have hcode : g.code v = f.code v := if_neg (by simp [hv])
    rw [table_native hd he .handle rfl, ← hcode]
    exact hreaches.once g

end Definition

namespace Effects

variable {o : Options} {s : Seed} {E : Value → Prop} {d₀ d e : Definition} {c c' c₁ : Catalog}

/-- The loops that iterate raise exceptions as plain values with escape control do. -/
theorem raises_looping (hs : looping c = (.ok s, c')) {j : DefId}
    (hd : s.definition? j = some d) (c₁ : Catalog) (host : DefId) :
    d.supplies .raise = true ∧ d.Raises c₁ host (fun _ => True) none := by
  obtain ⟨inner, escaped, i, k, hinner, hescaped, hgiven⟩ := table_looping hs hd
  have hhandle : inner.supplies .handle = false :=
    (Seed.supplies_of_definition? hinner .handle).trans rfl
  have hpassing : escaped.Passing c₁ host plainValues.effect none :=
    Definition.passing_threaded (monadic_identity (S := .silent c₁ host) hinner)
      (continues_identity hinner) hhandle hescaped
  obtain ⟨hraises, hraise⟩ := hgiven .raise (by decide)
  exact ⟨hraises, Definition.Raises.of_table_eq hpassing.raise hraise
    (hgiven .bind (by decide)).2 (hgiven .map (by decide)).2 (hgiven .handle (by decide)).2⟩

/-- The ready-made effects with escape control and their effect values: the layer is on top of plain
values, of lists of results and of `Ok` and `Err`, and beneath the loops that iterate. -/
inductive Recovering (o : Options) : Seed → (Value → Prop) → Prop where
  | identity (h : o.escape = true) : Recovering o identity fun _ => True
  | results (h : o.escape = true) : Recovering o results fun v => v.isList = true
  | either (h : o.escape = true) : Recovering o either fun v => isOutcome v = true
  | looping {s : Seed} {c c' : Catalog} (h : Effects.looping c = (.ok s, c')) :
      Recovering o s fun _ => True

namespace Recovering

/-- With escape control on top, or beneath, or both. -/
theorem escaping (h : Recovering o s E) (hd₀ : s.complete c = (.ok d₀, c₁))
    (he : d₀.escaping o.escape c₁ = (.ok e, c')) (c₂ : Catalog) (host : DefId) :
    e.Fixes E ∧ e.supplies .raise = true ∧ e.Raises c₂ host E none := by
  have hexceptional (hescape : o.escape = true) (hd₀ : d₀.Exceptional (.silent c₂ host) host E) :
      e.Fixes E ∧ e.supplies .raise = true ∧ e.Raises c₂ host E none := by
    refine ⟨hd₀.fixes.escaping he, ?_⟩
    rw [hescape] at he
    obtain ⟨hraise, hpassing, -⟩ := hd₀.withEscapeControl he
    exact ⟨hraise, hpassing.raise⟩
  cases h with
  | identity h =>
    obtain ⟨i, hd₀⟩ := Seed.definition?_of_complete rfl hd₀
    exact hexceptional h (exceptional_identity hd₀)
  | results h =>
    obtain ⟨i, hd₀⟩ := Seed.definition?_of_complete rfl hd₀
    exact hexceptional h (exceptional_results hd₀)
  | either h =>
    obtain ⟨i, hd₀⟩ := Seed.definition?_of_complete rfl hd₀
    exact hexceptional h (.either hd₀)
  | looping h =>
    have hreinstall := reinstall_looping h
    obtain ⟨i, hd₀⟩ := Seed.definition?_of_complete hreinstall hd₀
    obtain ⟨hcleans, hhandle⟩ := Encoding.cleans_looping h hd₀
    obtain ⟨hraise, hraises⟩ := raises_looping h hd₀ c₂ host
    refine ⟨hcleans.fixes.escaping he, ?_⟩
    cases hescape : o.escape with
    | false =>
      rw [hescape] at he
      cases he
      exact ⟨hraise, hraises⟩
    | true =>
      rw [hescape] at he
      obtain ⟨j, he⟩ := Definition.definition?_of_withEscapeControl he
      refine ⟨?_, hraises.native hhandle he⟩
      rw [Seed.supplies_of_definition? he, Escape.seed_of_handles hhandle]
      rfl

/-- Exceptions of everything that is built on the ready-made effects with escape control. -/
theorem raises (h : Recovering o s E) (hbuild : s.build o c = (.ok d, c'))
    (hknown : d.KnownIn c₁) :
    d.Raises c₁ d.id (fun v => ∃ a, E a ∧ v = o.packed d a) ((o.installer d).map (·.target)) := by
  obtain ⟨d₀, c₂, e, c₃, W, hd₀, he, hW, hwrap, hinstaller⟩ := Seed.build_wraps hbuild
  obtain ⟨hfixes, hraise, hraises⟩ := h.escaping hd₀ he c₁ d.id
  have hx : ∀ a ∈ W.installer, a.target = d.id :=
    fun a ha => Options.target_of_installer (hinstaller ▸ ha)
  have houter := hW.raises hraises hfixes hraise hx (Definition.mem_lineage hknown)
  have himage : W.Image E = fun v => ∃ a, E a ∧ v = o.packed d a := by
    simp only [← hwrap]
    rfl
  rwa [hinstaller, himage] at houter

end Recovering

end Effects

/-! ## Runs -/

theorem Prog.Alike.run_eq_finished {α : Type} {p : Prog α} {r : Except Fault α}
    (h : p.Alike (.done r)) (c : Catalog) (b : Nat) (w : World) :
    ∃ w', p.run c b w = .finished r w' ∧ w.Quiet w' ∧ w'.toFrame = w.toFrame := by
  have hrun := h.run c b (.refl w)
  rw [run_done] at hrun
  generalize p.run c b w = o at hrun
  cases hrun with
  | finished _ hw => exact ⟨_, rfl, .of_alike hw.symm, hw.symm.toFrame_eq⟩

/-- What is in use while a definition answers. -/
def DefId.inUse (d : DefId) : Scope := .holding { definitions := [d] }

/-- The run of an operation of a definition. -/
theorem Definition.KnownIn.run_invoke {d : Definition} {c : Catalog} (hknown : d.KnownIn c)
    (b : Nat) (w : World) (op : Operation) (args : List Value) :
    (DefId.invoke d.id op args).run c (b + 1) w =
      ((d.table.apply op args).run c b (w.entering d.id.inUse)).onward
        fun r w₁ => .finished r (w₁.leaving d.id.inUse w.toFrame) :=
  Prog.run_invoke c b w _ args _ hknown

namespace Ambient

variable {c : Catalog} {b : Nat} {w w₁ : World} {d : Definition} {E : Value → Prop}
  {x : Option DefId} {p : Prog Value} {e : Fault} {a v : Value}

/-- The run of an attempt: the program, and then what its outcome asks for, while the definition is
in use. -/
theorem run_attempt {d : DefId} (hw : w.ambient = some d) (p : Prog Value) :
    (attempt p).run c b w = (p.run c b (w.entering d.inUse)).onward fun r w₁ =>
      ((match r with
        | .ok v => d.invoke .coerce [v]
        | .error e => d.invoke .raise [e.payload fun b => (c.home b).isSome]).run c b w₁).onward
          fun r w₂ => .finished r (w₂.leaving d.inUse w.toFrame) := by
  rw [attempt, Prog.run_bind, run_definition c b hw]
  change (Prog.inside d.inUse _).run c b w = _
  rw [Prog.run_inside, Prog.bind_def, Prog.run_outcome_bind]
  cases p.run c b (w.entering d.inUse) with
  | halted h => rfl
  | finished r w₁ => cases r <;> rfl

/-- The run of an operation of the installed definition. -/
theorem run_invoke (hknown : d.KnownIn c) (hw : w.ambient = some d.id) (op : Operation)
    (args : List Value) :
    (invoke op args).run c (b + 1) w =
      ((d.table.apply op args).run c b (w.entering d.id.inUse)).onward
        fun r w₁ => .finished r (w₁.leaving d.id.inUse w.toFrame) := by
  rw [invoke, Prog.run_bind, run_definition c (b + 1) hw]
  exact hknown.run_invoke b w op args

/-- Where the program faults, the attempt raises the payload. -/
theorem run_attempt_raise (hknown : d.KnownIn c) (hw : w.ambient = some d.id)
    (hraise : (d.table .raise v).Alike (pure a))
    (hp : p.run c (b + 1) (w.entering d.id.inUse) = .finished (.error e) w₁)
    (hv : e.payload (fun b => (c.home b).isSome) = v) :
    ∃ w₂, (attempt p).run c (b + 1) w = .finished (.ok a) w₂ ∧ w₁.Quiet w₂ ∧
      w₂.ambient = w₁.ambient := by
  obtain ⟨w', hrun, hquiet, hframe⟩ := hraise.run_eq_finished c b (w₁.entering d.id.inUse)
  have hinvoke : (DefId.invoke d.id .raise [v]).run c (b + 1) w₁ =
      .finished (.ok a) (w'.leaving d.id.inUse w₁.toFrame) := by
    have hrun : (d.table.apply .raise [v]).run c b (w₁.entering d.id.inUse) =
        .finished (.ok a) w' := hrun
    rw [hknown.run_invoke, hrun]
    rfl
  refine ⟨_, ?_, (hquiet.within w₁.toFrame).trans (.leaving _ d.id.inUse w.toFrame), ?_⟩
  · rw [run_attempt hw, hp, Outcome.onward_finished]
    simp only [hv, hinvoke]
    rfl
  · have hambient : w'.ambient = (w₁.entering d.id.inUse).ambient := congrArg Frame.ambient hframe
    exact hambient

end Ambient

/-- The outcome is that of `q`, run with a call less to spend, with the definition installed, from a
world in which nothing happened that anybody notices; as long as `q` faults or answers an effect
value. -/
def Outcome.EndsAs (o : Outcome Value) (c : Catalog) (b : Nat) (d : DefId) (E : Value → Prop)
    (w : World) (q : Prog Value) : Prop :=
  ∃ w₁, w.Quiet w₁ ∧ w₁.ambient = some d ∧
    (∀ h, q.run c b w₁ = .halted h → o = .halted h) ∧
    ∀ r w₂, q.run c b w₁ = .finished r w₂ → (∀ u, r = .ok u → E u) →
      ∃ w₃, o = .finished r w₃ ∧ w₂.Quiet w₃ ∧ (w₂.ambient = some d → w₃.ambient = some d)

namespace Ambient

variable {c : Catalog} {d : Definition} {E : Value → Prop} {x : Option DefId} {a v : Value}

/-- The handler is called with the payload, and nothing comes after it. -/
theorem run_handle_of_reaches (h : d.Reaches c d.id E x a v) (hx : ∀ i ∈ x, i = d.id)
    (hknown : d.KnownIn c) (f : Value) :
    ∃ n, ∀ b w, n ≤ b → w.ambient = some d.id →
      ((invoke .handle [a, f]).run c (b + 1) w).EndsAs c b d.id E w (f.call v) := by
  obtain ⟨n, hn⟩ := h.once f.callback
  refine ⟨n, fun b w hb hw => ?_⟩
  have hrun := run_invoke (b := b) hknown hw .handle [a, f]
  obtain ⟨w₁, hquiet, hambient, -, hhalted, hfinished⟩ := hn b (w.entering d.id.inUse) hb
    ⟨{ definitions := [d.id] }, List.mem_cons_self, List.mem_singleton.mpr rfl⟩
  have hinstalled : w₁.ambient = some d.id := by
    rw [hambient]
    cases x with
    | none => exact hw
    | some i => exact congrArg some (hx i rfl)
  refine ⟨w₁, (World.Quiet.entering w _).trans hquiet, hinstalled, fun k hk => ?_,
    fun r w₂ hq hE => ?_⟩
  · have hhandled : (d.table.apply .handle [a, f]).run c b (w.entering d.id.inUse) = .halted k :=
      hhalted k hk
    rw [hrun, hhandled]
    rfl
  · have htranslates : Translates E (fun n => n) (fun n => n) r r := by
      cases r with
      | error e => exact .fault e
      | ok u => exact .answer (hE u rfl)
    obtain ⟨w₃, hhandled, hquiet₃, hambient₃⟩ := hfinished r w₂ r hq htranslates
    have hhandled : (d.table.apply .handle [a, f]).run c b (w.entering d.id.inUse) =
        .finished r w₃ := hhandled
    refine ⟨w₃.leaving d.id.inUse w.toFrame, ?_, hquiet₃.trans (.leaving w₃ _ _), fun hw₂ => ?_⟩
    · rw [hrun, hhandled]
      rfl
    · cases x with
      | none => exact hambient₃.trans hw₂
      | some i => exact hambient₃.trans hw

/-- The continuation is not called. -/
theorem run_bind_of_skips (h : d.Skips c d.id a) (hknown : d.KnownIn c) (g : Value) :
    ∃ n, ∀ b w, n ≤ b → w.ambient = some d.id →
      ∃ w', (invoke .bind [a, g]).run c (b + 1) w = .finished (.ok a) w' ∧ w.Quiet w' ∧
        w'.ambient = some d.id := by
  obtain ⟨n, hn⟩ := h.bind g.callback
  refine ⟨n, fun b w hb hw => ?_⟩
  obtain ⟨w', hbind, hquiet, hframe⟩ := hn b (w.entering d.id.inUse) hb
    ⟨{ definitions := [d.id] }, List.mem_cons_self, List.mem_singleton.mpr rfl⟩
  have hbind : (d.table.apply .bind [a, g]).run c b (w.entering d.id.inUse) =
      .finished (.ok a) w' := hbind
  refine ⟨w'.leaving d.id.inUse w.toFrame, ?_, hquiet.within _, ?_⟩
  · rw [run_invoke hknown hw, hbind]
    rfl
  · exact (congrArg Frame.ambient hframe).trans hw

end Ambient

/-! ## Attempts -/

/-- What attempts answer with the definition installed, and what handlers and continuations make of
it. -/
structure Definition.Attempts (d : Definition) (c : Catalog) (E : Value → Prop)
    (x : Option DefId) : Prop where
  /-- What the program answers is coerced. -/
  coerce : ∀ b w (p : Prog Value) v w₁, w.ambient = some d.id →
    p.run c b (w.entering d.id.inUse) = .finished (.ok v) w₁ →
      (Ambient.attempt p).run c b w = ((d.id.invoke .coerce [v]).run c b w₁).onward
        fun r w₂ => .finished r (w₂.leaving d.id.inUse w.toFrame)
  /-- The payload of a fault is raised. -/
  raise : ∀ b w (p : Prog Value) e w₁, w.ambient = some d.id →
    p.run c b (w.entering d.id.inUse) = .finished (.error e) w₁ →
      (Ambient.attempt p).run c b w =
        ((d.id.invoke .raise [e.payload fun b => (c.home b).isSome]).run c b w₁).onward
          fun r w₂ => .finished r (w₂.leaving d.id.inUse w.toFrame)
  /-- If the program and what it calls install definitions only in scopes that put the former one
  back, then what was installed before is so after the attempt, however it ends. -/
  restores : c.Steady → ∀ b w (p : Prog Value) r w', w.Steady → p.Steady false →
    (Ambient.attempt p).run c b w = .finished r w' → w'.ambient = w.ambient
  /-- There is an effect value for each payload that is no signal. It skips every continuation and
  reaches every handler. Whatever program faults with the payload, its attempt answers that value,
  and installs nothing itself. With the definition installed as before, the handler of the attempt
  is called with the payload, and a continuation of it is not called at all. -/
  recovers : ∀ v, v.isSignal = false → ∃ a, E a ∧ d.Skips c d.id a ∧ d.Reaches c d.id E x a v ∧
    ∀ h g : Value, ∃ n, ∀ b w (p : Prog Value) e w₁, w.ambient = some d.id →
      p.run c (b + 1) (w.entering d.id.inUse) = .finished (.error e) w₁ →
      e.payload (fun b => (c.home b).isSome) = v →
        ∃ w₂, (Ambient.attempt p).run c (b + 1) w = .finished (.ok a) w₂ ∧ w₁.Quiet w₂ ∧
          w₂.ambient = w₁.ambient ∧
          (n ≤ b → w₂.ambient = w.ambient →
            ((do Ambient.invoke .handle [← Ambient.attempt p, h] : Prog Value).run c (b + 1)
              w).EndsAs c b d.id E w₂ (h.call v) ∧
            ∃ w₃, (do Ambient.invoke .bind [← Ambient.attempt p, g] : Prog Value).run c (b + 1) w =
              .finished (.ok a) w₃ ∧ w₂.Quiet w₃ ∧ w₃.ambient = w.ambient)

/-- Attempts recover faults where exceptions skip continuations and reach handlers. -/
theorem Definition.Raises.attempts {d : Definition} {c : Catalog} {E : Value → Prop}
    {x : Option DefId} (h : d.Raises c d.id E x) (hx : ∀ i ∈ x, i = d.id) (hknown : d.KnownIn c) :
    d.Attempts c E x where
  coerce b w p v w₁ hw hp := by
    rw [Ambient.run_attempt hw, hp]
    rfl
  raise b w p e w₁ hw hp := by
    rw [Ambient.run_attempt hw, hp]
    rfl
  restores hc b w p r w' hw hp hrun := ((Expr.steady_attempt hp).run hc.answer hw hrun).2 rfl
  recovers v hv := by
    obtain ⟨a, ha, hraise, hskips, hreaches⟩ := h v hv
    refine ⟨a, ha, hskips, hreaches, fun h g => ?_⟩
    obtain ⟨n, hhandle⟩ := Ambient.run_handle_of_reaches hreaches hx hknown h
    obtain ⟨m, hbind⟩ := Ambient.run_bind_of_skips hskips hknown g
    refine ⟨max n m, fun b w p e w₁ hw hp he => ?_⟩
    obtain ⟨w₂, hattempt, hquiet, hambient⟩ := Ambient.run_attempt_raise hknown hw hraise hp he
    have hgo (k : Value → Prog Value) :
        (Ambient.attempt p >>= k).run c (b + 1) w = (k a).run c (b + 1) w₂ := by
      rw [Prog.run_bind, hattempt]
      rfl
    refine ⟨w₂, hattempt, hquiet, hambient, fun hb hrestored => ?_⟩
    have hinstalled : w₂.ambient = some d.id := hrestored.trans hw
    obtain ⟨w₃, hbound, hquiet₃, hambient₃⟩ := hbind b w₂ (by omega) hinstalled
    refine ⟨?_, w₃, ?_, hquiet₃, hambient₃.trans hw.symm⟩
    · rw [hgo]
      exact hhandle b w₂ (by omega) hinstalled
    · rw [hgo]
      exact hbound

namespace Effects.Recovering

variable {o : Options} {s : Seed} {E : Value → Prop} {c c' c₁ : Catalog} {d : Definition}

/-- With escape control, on top or beneath, and under every layer, attempts recover every fault:
what `raise` answers to its payload is handled by handlers and by nothing else. -/
theorem attempts_recover (h : Recovering o s E) (hbuild : s.build o c = (.ok d, c'))
    (hknown : d.KnownIn c₁) :
    d.Attempts c₁ (fun v => ∃ a, E a ∧ v = o.packed d a) ((o.installer d).map (·.target)) := by
  refine (h.raises hbuild hknown).attempts (fun i hi => ?_) hknown
  obtain ⟨x, hx, rfl⟩ := Option.mem_map.mp hi
  exact Options.target_of_installer hx

/-- Under every layer, a fault with another definition installed is recovered, what was installed
before is so again, and a handler that answers the payload is called. -/
theorem attempts_recover_installing :
    let o : Options := ⟨true, some "wrapped", true, .full, .home⟩
    ∃ d c, Effects.either.build o .empty = (.ok d, c) ∧
      d.Attempts c (fun v => ∃ a, isOutcome a = true ∧ v = o.packed d a) (some d.id) ∧
      let handler : Callback := ⟨fun v => pure (o.packed d (.ctor "Ok" v)), { }⟩
      let w : World := { World.empty with ambient := some d.id, functions := #[handler] }
      let p : Prog Value := Prog.inside (.installed 0) (throw (.thrown (.int 1)))
      (∃ a w', (Ambient.attempt p).run c 1 w = .finished (.ok (o.packed d a)) w' ∧
        isOutcome a = true ∧ w'.ambient = some d.id) ∧
      ∃ b w', (do Ambient.invoke .handle [← Ambient.attempt p, .func 0] : Prog Value).run c b w =
        .finished (.ok (o.packed d (.ctor "Ok" (.int 1)))) w' := by
  intro o
  obtain ⟨d, c, hbuild⟩ : ∃ d c, Effects.either.build o .empty = (.ok d, c) := ⟨_, _, rfl⟩
  have hattempts := attempts_recover (.either rfl) hbuild (Seed.known_of_build hbuild)
  refine ⟨d, c, hbuild, hattempts, ?_⟩
  intro handler w p
  have hcatalog : c.Steady := by
    have hkept := Invariant.keeps_build (I := .steady) steady_either o .empty Catalog.steady_empty
    rw [hbuild] at hkept
    exact hkept.1
  have hworld : w.Steady := World.steady_empty.push (f := handler) fun _ => trivial
  have hrestores (b : Nat) {a : Value} {w' : World}
      (h : (Ambient.attempt p).run c b w = .finished (.ok a) w') : w'.ambient = w.ambient :=
    hattempts.restores hcatalog b w p _ w' hworld ⟨trivial, fun _ => trivial⟩ h
  obtain ⟨_, ⟨a, ha, rfl⟩, -, -, hrecovers⟩ := hattempts.recovers (.int 1) rfl
  obtain ⟨n, hrun⟩ := hrecovers (.func 0) .unit
  constructor
  · obtain ⟨w', hattempt, -⟩ := hrun 0 w p (.thrown (.int 1)) _ rfl rfl rfl
    exact ⟨a, w', hattempt, ha, hrestores 1 hattempt⟩
  · obtain ⟨w₂, hattempt, hquiet, -, hhandled⟩ :=
      hrun (n + 1) w p (.thrown (.int 1)) _ rfl rfl rfl
    obtain ⟨⟨w₃, hquiet₃, -, -, hends⟩, -⟩ := hhandled (by omega) (hrestores _ hattempt)
    obtain ⟨f, hf, halike⟩ := (hquiet.trans hquiet₃).functions 0 handler rfl
    obtain ⟨w₄, hcode, -⟩ := (halike.code (.int 1)).symm.run_eq_finished c n
      (w₃.entering (.holding { values := [.func 0] }))
    have hcall : ((Value.func 0).call (.int 1)).run c (n + 1) w₃ = .finished _ _ :=
      (Prog.run_call c n w₃ _ _ hf).trans (by rw [hcode]; rfl)
    obtain ⟨w₅, hrun, -⟩ := hends _ _ hcall fun u hu =>
      ⟨.ctor "Ok" (.int 1), rfl, (Except.ok.inj hu).symm⟩
    exact ⟨_, w₅, hrun⟩

end Effects.Recovering

end EffectLayers
