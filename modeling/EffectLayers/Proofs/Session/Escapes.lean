import EffectLayers.Proofs.Layer.Implemented
import EffectLayers.Proofs.Layer.Override
import EffectLayers.Session.Basic

/-!
# Escape control in a stack of layers

Escape control makes `raise`, `handle`, `block`, `scope` and `cleanup` out of the exceptions of the
definition beneath it if that was given a `handle`, and out of signals otherwise. A carrier,
coercion and a context give a `handle` in any case: one that has no source if there was none
beneath. Escape control on top of them takes it for a real one.

## Main definitions

* `Layer.Puts`, `Layer.PutsAll`: a definition with layers on top.
* `Layer.first?`: the innermost layer that puts something on.
* `Definition.Stubbed`: a definition whose exceptions have no source.
* `Seed.restored`: the layers that completing a seed puts on.
* `Seed.Escapes`: a seed on which escape control works in a stack of layers.

## Main statements

* `Definition.Offers.puts`, `Definition.Stubbed.puts`: what each layer keeps.
* `Session.escape_implemented_iff`: the stacks in which escape control works.
-/

namespace EffectLayers

/-! ## Layers -/

/-- The definition `d` is the layer on top of `inner`. -/
inductive Layer.Puts : Layer → Definition → Definition → Prop
  | escape {inner d : Definition} {id : DefId} (h : (Escape.seed inner).definition? id = some d) :
      Puts .escape inner d
  | coercion {inner d : Definition} {id : DefId} (hcoerce : inner.supplies .coerce = true)
      (h : (Coercion.seed inner).definition? id = some d) : Puts .coercion inner d
  | carrier {name : String} {brand : Brand} {inner d : Definition} {id : DefId}
      (h : ((inner.packing brand).seed inner).definition? id = some d) :
      Puts (.carrier name) inner d
  | off (d : Definition) : Puts (.context .off) d d
  | context {mode : ContextMode} {inner d : Definition} {id : DefId} (hmode : mode ≠ .off)
      (h : (inner.contextSeed mode id).definition? id = some d) : Puts (.context mode) inner d

/-- The definition is that of all the layers on top of `inner`, the first one innermost. -/
inductive Layer.PutsAll : List Layer → Definition → Definition → Prop
  | nil (d : Definition) : PutsAll [] d d
  | cons {l : Layer} {ls : List Layer} {inner mid d : Definition} (h : l.Puts inner mid)
      (hs : PutsAll ls mid d) : PutsAll (l :: ls) inner d

/-! ## What layers keep -/

/-- A context layer in the mode `off` puts nothing on. -/
def Layer.effective : Layer → Bool
  | context .off => false
  | _ => true

theorem Layer.Puts.eq_of_off {l : Layer} {inner d : Definition} (hl : l.Puts inner d)
    (h : l.effective = false) : d = inner := by
  cases hl with
  | off => rfl
  | @context mode =>
    cases mode with
    | off => contradiction
    | runOnly | full => cases h
  | _ => cases h

/-- The innermost layer of those that put something on. -/
def Layer.first? (ls : List Layer) : Option Layer := ls.find? Layer.effective

namespace Definition

variable {A : Arena} {inner d : Definition} {ops : List Operation} {l : Layer} {ls : List Layer}

/-- Each layer keeps exceptions, and escape control if it is there. -/
theorem Offers.puts (h : inner.Offers A ops) (hexceptions : Operation.exceptions ⊆ ops)
    (hops : ops ⊆ Operation.control) (hl : l.Puts inner d) : d.Offers A ops := by
  have hcoerce : .coerce ∈ ops := hexceptions (by decide)
  cases hl with
  | escape hd =>
    rw [Escape.seed_eq_native (h.handle (hexceptions (by decide)))] at hd
    exact (Escape.offers_native (h.mono hexceptions) hd).mono hops
  | coercion _ hd => exact h.coercion hcoerce hops hd
  | carrier hd => exact h.carrier hcoerce hops hd
  | off => exact h
  | context _ hd => exact h.context hops hd

/-- With exceptions beneath it, escape control is there once it is put on. -/
theorem Offers.puts_escape (h : inner.Offers A Operation.exceptions)
    (hl : Layer.escape.Puts inner d) : d.Offers A Operation.control := by
  cases hl with
  | escape hd =>
    rw [Escape.seed_eq_native (h.handle (by decide))] at hd
    exact Escape.offers_native h hd

/-- Without a `handle` beneath it, escape control is threaded. -/
theorem Offers.puts_threaded (h : inner.Offers A Operation.basic)
    (hhandle : inner.supplies .handle = false) (hl : Layer.escape.Puts inner d) :
    d.Offers A Operation.control := by
  cases hl with
  | escape hd =>
    rw [Escape.seed_eq_threaded hhandle] at hd
    exact Escape.offers_threaded h hd

theorem Offers.putsAll (h : inner.Offers A ops) (hexceptions : Operation.exceptions ⊆ ops)
    (hops : ops ⊆ Operation.control) (hls : Layer.PutsAll ls inner d) : d.Offers A ops := by
  induction hls with
  | nil => exact h
  | cons hl _ ih => exact ih (h.puts hexceptions hops hl)

theorem Offers.putsAll_escape (h : inner.Offers A Operation.exceptions)
    (hls : Layer.PutsAll ls inner d) (hescape : .escape ∈ ls) : d.Offers A Operation.control := by
  induction hls with
  | nil => cases hescape
  | cons hl hls ih =>
    cases hescape with
    | head => exact (h.puts_escape hl).putsAll (by decide) (by simp) hls
    | tail _ hescape => exact ih (h.puts (by simp) (by decide) hl) hescape

theorem Offers.putsAll_threaded (h : inner.Offers A Operation.basic)
    (hhandle : inner.supplies .handle = false) (hls : Layer.PutsAll ls inner d)
    (hfirst : Layer.first? ls = some .escape) : d.Offers A Operation.control := by
  induction hls with
  | nil => cases hfirst
  | @cons l _ _ _ _ hl hls ih =>
    cases heffective : l.effective with
    | true =>
      obtain rfl : l = .escape := by simpa [Layer.first?, heffective] using hfirst
      exact (h.puts_threaded hhandle hl).putsAll (by decide) (by simp) hls
    | false =>
      obtain rfl := hl.eq_of_off heffective
      exact ih h hhandle (by simpa [Layer.first?, heffective] using hfirst)

/-! ## Exceptions without a source -/

/-- The exceptions of the definition have no source: none can be raised, or there is an effect value
on which none can be handled. -/
def Stubbed (d : Definition) : Prop :=
  (∀ e, (d.table .raise e).Missing) ∨ ∃ a, ∀ f, (d.table .handle a f).Missing

theorem missing_raise {s : Seed} {id : DefId} (hd : s.definition? id = some d)
    (hs : s.ops .raise = none) (e : Value) : (d.table .raise e).Missing := by
  obtain ⟨lift, -, rfl⟩ := Option.map_eq_some_iff.mp hd
  change (s.raise e).Missing
  simp only [Seed.raise, hs, Option.getD_none]
  exact .throw rfl

theorem missing_handle {s : Seed} {id : DefId} (hd : s.definition? id = some d)
    (hs : s.ops .handle = none) (a : Value) (f : Callback) : (d.table .handle a f).Missing := by
  obtain ⟨lift, -, rfl⟩ := Option.map_eq_some_iff.mp hd
  change (s.handle a f).Missing
  simp only [Seed.handle, hs, Option.getD_none]
  exact .throw rfl

theorem missing_raise_of_keeping {s : Seed} {id : DefId} (layer : String)
    (h : ∀ e, (inner.table .raise e).Missing) (hd : s.definition? id = some d)
    (hs : s.ops .raise = (Seed.keeping inner layer).ops .raise) (e : Value) :
    (d.table .raise e).Missing := by
  obtain ⟨hsupplies, htable⟩ := kept_of_definition? layer .raise hd rfl hs
  cases hraise : inner.supplies .raise with
  | true =>
    rw [htable hraise]
    exact h e
  | false =>
    rw [hraise, Seed.supplies_of_definition? hd] at hsupplies
    exact missing_raise hd (Seed.ops_eq_none hsupplies) e

/-- Every layer has a `handle`. -/
theorem supplies_handle_of_puts (hl : l.Puts inner d) (h : l.effective = true) :
    d.supplies .handle = true := by
  cases hl with
  | escape hd =>
    rw [Seed.supplies_of_definition? hd, Escape.seed]
    split <;> rfl
  | coercion _ hd => exact Seed.supplies_given hd .handle rfl
  | carrier hd => exact Seed.supplies_given hd .handle rfl
  | off => cases h
  | @context mode _ _ _ _ hd =>
    cases mode <;> exact Seed.supplies_given hd .handle rfl

/-- No layer makes up for a `raise` without a source, except for threaded escape control. -/
theorem missing_raise_of_puts (h : ∀ e, (inner.table .raise e).Missing)
    (hhandle : l = .escape → inner.supplies .handle = true) (hl : l.Puts inner d) (e : Value) :
    (d.table .raise e).Missing := by
  cases hl with
  | escape hd =>
    rw [Escape.seed_eq_native (hhandle rfl)] at hd
    exact Seed.table_given hd .raise rfl ▸ h e
  | coercion _ hd => exact missing_raise_of_keeping "coerce" h hd rfl e
  | carrier hd => exact Seed.table_given hd .raise rfl ▸ (h e).bind
  | off => exact h e
  | @context mode _ _ _ _ hd =>
    exact missing_raise_of_keeping "context" h hd (by cases mode <;> rfl) e

/-- Nor for a `handle` without a source. -/
theorem missing_handle_of_puts {a : Value} (h : ∀ f, (inner.table .handle a f).Missing)
    (hhandle : l = .escape → inner.supplies .handle = true) (hl : l.Puts inner d) :
    ∃ b, ∀ f, (d.table .handle b f).Missing := by
  cases hl with
  | escape hd =>
    rw [Escape.seed_eq_native (hhandle rfl)] at hd
    exact ⟨a, fun f => Seed.table_given hd .handle rfl ▸ h _⟩
  | coercion _ hd => exact ⟨a, fun f => Seed.table_given hd .handle rfl ▸ h _⟩
  | @carrier name brand _ _ _ hd =>
    refine ⟨(inner.packing brand).pack a, fun f => ?_⟩
    rw [Seed.table_given hd .handle rfl]
    rw [Packing.bindWith, Packing.unpack_pack]
    exact .after _ a (h _).bind
  | off => exact ⟨a, h⟩
  | @context mode _ _ _ _ hd =>
    cases mode <;> exact ⟨a, fun f => Seed.table_given hd .handle rfl ▸ h _⟩

theorem Stubbed.puts (h : inner.Stubbed) (hhandle : l = .escape → inner.supplies .handle = true)
    (hl : l.Puts inner d) : d.Stubbed := by
  obtain h | ⟨a, h⟩ := h
  · exact .inl (missing_raise_of_puts h hhandle hl)
  · exact .inr (missing_handle_of_puts h hhandle hl)

theorem Stubbed.putsAll (h : inner.Stubbed) (hhandle : inner.supplies .handle = true)
    (hls : Layer.PutsAll ls inner d) : d.Stubbed := by
  induction hls with
  | nil => exact h
  | @cons l _ _ mid _ hl _ ih =>
    refine ih (h.puts (fun _ => hhandle) hl) ?_
    cases heffective : l.effective with
    | true => exact supplies_handle_of_puts hl heffective
    | false =>
      obtain rfl := hl.eq_of_off heffective
      exact hhandle

/-- Without a `handle` beneath it, a layer other than escape control is a stub, and so is what is
put on it. -/
theorem stubbed_putsAll (hmissing : ∀ a f, (inner.table .handle a f).Missing)
    (hls : Layer.PutsAll ls inner d) (hfirst : Layer.first? ls = some l) (hl : l ≠ .escape) :
    d.Stubbed := by
  induction hls with
  | nil => cases hfirst
  | @cons k ks inner mid d hk hks ih =>
    cases heffective : k.effective with
    | true =>
      obtain rfl : k = l := by simpa [Layer.first?, heffective] using hfirst
      have hstubbed : inner.Stubbed := .inr ⟨.unit, hmissing .unit⟩
      exact (hstubbed.puts (fun h => absurd h hl) hk).putsAll
        (supplies_handle_of_puts hk heffective) hks
    | false =>
      obtain rfl := hk.eq_of_off heffective
      exact ih hmissing (by simpa [Layer.first?, heffective] using hfirst)

/-- Exceptions without a source are not implemented. -/
theorem Stubbed.not_provides (h : d.Stubbed) {w : World} (hw : A.admits w) :
    ¬ (d.Provides A .raise ∧ d.Provides A .handle) := by
  rintro ⟨hraise, hhandle⟩
  obtain h | ⟨a, h⟩ := h
  · exact (h .unit).not_implemented hw (hraise .unit)
  · exact (h { code := Pure.pure }).not_implemented hw (hhandle a _ fun v => .pure v)

end Definition

/-! ## Stacking layers -/

theorem Layer.PutsAll.append {ls ls' : List Layer} {inner mid d : Definition}
    (h : PutsAll ls inner mid) (h' : PutsAll ls' mid d) : PutsAll (ls ++ ls') inner d := by
  induction h with
  | nil => exact h'
  | cons hl _ ih => exact .cons hl (ih h')

namespace Definition

variable {inner : Definition} {c : Catalog}

theorem yields_puts_context (inner : Definition) (mode : ContextMode) (c : Catalog) :
    (inner.withContext mode).Yields c fun d _ =>
      (Layer.context mode).Puts inner d ∧ d.supplies .coerce = inner.supplies .coerce := by
  by_cases hmode : mode = .off
  · subst hmode
    exact .pure ⟨.off inner, rfl⟩
  · rw [withContext_of_ne_off inner hmode]
    refine Seed.yields_assembleWith (supplies_pure_contextSeed _ _ _) fun d id hd _ =>
      ⟨.context hmode hd, ?_⟩
    exact (kept_of_definition? "context" .coerce hd rfl (by cases mode <;> rfl)).1

end Definition

namespace Session

variable {t : Session} {c : Catalog} {ls : List Layer}

/-- A layer is put on top of every definition, except for coercion without a `coerce`. -/
theorem yields_layer {l : Layer} {f : Definition → Assembly Definition} (hl : t.layer? l = some f)
    {inner : Definition} (hcoerce : l = .coercion → inner.supplies .coerce = true) :
    (f inner).Yields c fun d _ => l.Puts inner d ∧ d.supplies .coerce = inner.supplies .coerce := by
  cases l with
  | escape =>
    cases hl
    refine Seed.yields_assemble ?_ fun d id hd _ => ⟨.escape hd, ?_⟩
    · rw [Escape.seed]
      split <;> rfl
    · refine (Definition.kept_of_definition? "escape" .coerce hd rfl ?_).1
      rw [Escape.seed]
      split <;> rfl
  | coercion =>
    cases hl
    have hrun : inner.withCoercion = (Coercion.seed inner).assemble := by
      rw [Definition.withCoercion, if_pos (hcoerce rfl)]
    change inner.withCoercion.Yields c _
    rw [hrun]
    exact Seed.yields_assemble rfl fun d id hd _ =>
      ⟨.coercion (hcoerce rfl) hd, (Definition.kept_of_definition? "coerce" .coerce hd rfl rfl).1⟩
  | carrier name =>
    obtain ⟨brand, -, rfl⟩ := Option.map_eq_some_iff.mp hl
    refine Seed.yields_assemble rfl fun d id hd _ => ⟨.carrier hd, ?_⟩
    rw [Seed.supplies_of_definition? hd, Seed.supplies]
    change ((inner.packing brand).coercion.map _).isSome = _
    unfold Definition.packing
    cases inner.supplies .coerce <;> rfl
  | context mode =>
    cases hl
    exact Definition.yields_puts_context inner mode c

theorem yields_layers {stack : Definition → Assembly Definition}
    (hstack : t.layers? ls = some stack) {inner : Definition}
    (hcoerce : .coercion ∈ ls → inner.supplies .coerce = true) :
    (stack inner).Yields c fun d _ => Layer.PutsAll ls inner d := by
  induction ls generalizing stack inner c with
  | nil =>
    cases hstack
    exact .pure (.nil inner)
  | cons l ls ih =>
    obtain ⟨first, hfirst, h⟩ := Option.bind_eq_some_iff.mp hstack
    obtain ⟨others, hothers, rfl⟩ := Option.map_eq_some_iff.mp h
    refine .bind (yields_layer hfirst fun h => hcoerce (h ▸ List.mem_cons_self))
      fun mid c _ ⟨hmid, hsupplies⟩ => ?_
    refine (ih hothers fun h => ?_).mono fun d _ hd => .cons hmid hd
    exact hsupplies.trans (hcoerce (List.mem_cons_of_mem _ h))

end Session

/-- The context layer that completing the seed puts back, if there is one. -/
def Seed.restored (s : Seed) : List Layer := (s.reinstall.map fun r => .context r.mode).toList

/-- Completing a seed puts back the context layer that was taken off. -/
theorem Seed.yields_complete_putsAll {s : Seed} {c : Catalog} (hpure : s.supplies .pure = true) :
    s.complete.Yields c fun d _ => ∃ inner id, s.definition? id = some inner ∧
      Layer.PutsAll s.restored inner d ∧ d.supplies .coerce = s.supplies .coerce := by
  refine .bind (P := fun inner _ => ∃ id, s.definition? id = some inner)
    (yields_assemble hpure fun inner id hinner _ => ⟨id, hinner⟩) fun inner c _ ⟨id, hinner⟩ => ?_
  have hcoerce := supplies_of_definition? hinner .coerce
  rw [restored]
  cases s.reinstall with
  | none => exact .pure ⟨inner, id, hinner, .nil inner, hcoerce⟩
  | some r =>
    obtain ⟨mode, brand⟩ := r
    refine .bind (Definition.yields_puts_context inner mode c) fun d c _ ⟨hd, hsupplies⟩ => ?_
    cases brand with
    | none => exact .pure ⟨inner, id, hinner, .cons hd (.nil d), hsupplies.trans hcoerce⟩
    | some brand => exact .adopting ⟨inner, id, hinner, .cons hd (.nil d), hsupplies.trans hcoerce⟩

/-- The operations that escape control adds. -/
def Operation.escapes : List Operation := [raise, handle, block, scope, cleanup]

/-- The seed has exceptions of its own, or escape control is the innermost layer that is put on a
seed without `handle`. -/
def Seed.Escapes (s : Seed) (ls : List Layer) : Prop :=
  s.supplies .handle = true ∧ s.supplies .raise = true ∨
    s.supplies .handle = false ∧ Layer.first? (s.restored ++ ls) = some .escape

namespace Seed

variable {A : Arena} {s : Seed} {ls : List Layer} {inner d : Definition} {id : DefId}

theorem Escapes.offers_control (h : s.Escapes ls) (hs : s.Implemented A)
    (hbind : s.supplies .bind = true) (hescape : .escape ∈ ls)
    (hinner : s.definition? id = some inner) (hputs : Layer.PutsAll (s.restored ++ ls) inner d) :
    d.Offers A Operation.control := by
  obtain ⟨hhandle, hraise⟩ | ⟨hhandle, hfirst⟩ := h
  · exact (hs.offers_exceptions hbind hraise hhandle hinner).putsAll_escape hputs
      (List.mem_append_right _ hescape)
  · exact (hs.offers_basic hbind hinner).putsAll_threaded
      ((supplies_of_definition? hinner .handle).trans hhandle) hputs hfirst

theorem stubbed_of_not_escapes (h : ¬ s.Escapes ls) (hescape : .escape ∈ ls)
    (hinner : s.definition? id = some inner) (hputs : Layer.PutsAll (s.restored ++ ls) inner d) :
    d.Stubbed := by
  cases hhandle : s.supplies .handle with
  | true =>
    have hraise : s.supplies .raise = false :=
      Bool.eq_false_iff.mpr fun hraise => h (.inl ⟨hhandle, hraise⟩)
    have hstubbed : inner.Stubbed := .inl (Definition.missing_raise hinner (ops_eq_none hraise))
    exact hstubbed.putsAll ((supplies_of_definition? hinner .handle).trans hhandle) hputs
  | false =>
    obtain ⟨l, hfirst⟩ : ∃ l, Layer.first? (s.restored ++ ls) = some l :=
      Option.isSome_iff_exists.mp
        (List.find?_isSome.mpr ⟨.escape, List.mem_append_right _ hescape, rfl⟩)
    refine Definition.stubbed_putsAll (Definition.missing_handle hinner (ops_eq_none hhandle))
      hputs hfirst fun hl => h (.inr ⟨hhandle, ?_⟩)
    rw [hfirst, hl]

end Seed

/-- Layers, escape control among them, are put on a seed with `pure` and `bind`. The operations that
escape control adds never end for want of a source exactly if the seed has `raise` and `handle` of
its own, or has no `handle` and escape control is the innermost layer that puts something on it. Any
other layer has a `handle`, which is a stub then. -/
theorem Session.escape_implemented_iff {t : Session} {ls : List Layer}
    {stack : Definition → Assembly Definition} (hstack : t.layers? ls = some stack)
    (hescape : .escape ∈ ls) {s : Seed} (hpure : s.supplies .pure = true)
    (hbind : s.supplies .bind = true) (hcoerce : .coercion ∈ ls → s.supplies .coerce = true)
    (c : Catalog) :
    ∃ d c', (s.complete >>= stack) c = (.ok d, c') ∧
      ∀ A : Arena, (∃ w, A.admits w) → s.Implemented A →
        ((∀ op ∈ Operation.escapes, d.Provides A op) ↔ s.Escapes ls) := by
  suffices h : (s.complete >>= stack).Yields c fun d _ =>
      ∃ inner id, s.definition? id = some inner ∧ Layer.PutsAll (s.restored ++ ls) inner d by
    obtain ⟨d, c', hrun, -, inner, id, hinner, hputs⟩ := h
    refine ⟨d, c', hrun, fun A ⟨w, hw⟩ hs => ⟨fun h => ?_, fun h op hop => ?_⟩⟩
    · refine Classical.byContradiction fun hnot => ?_
      exact (Seed.stubbed_of_not_escapes hnot hescape hinner hputs).not_provides hw
        ⟨h .raise (by decide), h .handle (by decide)⟩
    · have hsub : Operation.escapes ⊆ Operation.control := by decide
      exact (h.offers_control hs hbind hescape hinner hputs).provides op (hsub hop)
  refine .bind (Seed.yields_complete_putsAll hpure)
    fun mid c _ ⟨inner, id, hinner, hmid, hsupplies⟩ => ?_
  refine (yields_layers hstack fun h => hsupplies.trans (hcoerce h)).mono fun d _ hd => ?_
  exact ⟨inner, id, hinner, hmid.append hd⟩

/-- On plain values, escape control first works under every layer on top of it. -/
theorem Session.escape_implemented_first :
    ∃ stack d c, Session.empty.layers? [.context .off, .escape, .coercion, .context .full] =
        some stack ∧
      (Effects.identity.complete >>= stack) .empty = (.ok d, c) ∧
      ∀ op ∈ Operation.escapes, d.Provides (.everywhere c) op := by
  obtain ⟨stack, hstack⟩ : ∃ stack,
      Session.empty.layers? [.context .off, .escape, .coercion, .context .full] = some stack :=
    ⟨_, rfl⟩
  obtain ⟨d, c, hrun, hiff⟩ := escape_implemented_iff hstack (by simp) (s := Effects.identity)
    rfl rfl (fun _ => rfl) .empty
  refine ⟨stack, d, c, hstack, hrun, (hiff (.everywhere c) ⟨.empty, trivial⟩ ?_).mpr ?_⟩
  · intro op g hg
    cases op with
    | pure | coerce =>
      cases hg
      exact fun v => .pure v
    | bind =>
      cases hg
      exact fun a f hf => hf.call a
    | run =>
      cases hg
      trivial
    | _ => cases hg
  · exact .inr ⟨rfl, rfl⟩

/-- Escape control on top of coercion takes the `handle` there for a real one: nothing can be
raised. -/
theorem Session.escape_lost_coercion :
    ∃ stack d c, Session.empty.layers? [.coercion, .escape] = some stack ∧
      (Effects.identity.complete >>= stack) .empty = (.ok d, c) ∧
      ∀ e w, (d.table .raise e).run c 0 w =
        .finished (.error (.notImplemented .raise "identity+coerce")) w :=
  ⟨_, _, _, rfl, rfl, fun _ _ => rfl⟩

end EffectLayers
