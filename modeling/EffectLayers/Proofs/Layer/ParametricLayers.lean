import EffectLayers.Proofs.Layer.Parametric

/-!
# Layers only call their callbacks

Every layer on top of a definition whose operations only call their callbacks is one itself, and so
are the ready-made effects and what has operations with bodies on values.

## Main statements

* `Table.Parametric.escape`, `Table.Parametric.carrier`, `Table.Parametric.coercion`,
  `Table.Parametric.context`: a layer only calls its callbacks.
* `Operation.related_ofBody`: so does what has a body on values.
* `Seed.Parametric.identity` and the like: so do the ready-made effects.
-/

namespace EffectLayers

open Correspondence

namespace Table.Parametric

variable {t : Table} (h : t.Parametric)

include h

theorem bind_similar (a : Value) {k l : Callback} (hkl : k.Similar l) :
    (t .bind a k).Similar (t .bind a l) :=
  answers_same.mp (h .bind a k l (calls_same.mpr hkl))

theorem map_similar (a : Value) {k l : Callback} (hkl : k.Similar l) :
    (t .map a k).Similar (t .map a l) :=
  answers_same.mp (h .map a k l hkl)

theorem handle_similar (a : Value) {k l : Callback} (hkl : k.Similar l) :
    (t .handle a k).Similar (t .handle a l) :=
  answers_same.mp (h .handle a k l (calls_same.mpr hkl))

theorem cleanup_similar (a : Value) {k l : Action} (hkl : Action.Similar k l) :
    (t .cleanup a k).Similar (t .cleanup a l) :=
  answers_same.mp (h .cleanup a k l (acts_same.mpr hkl))

theorem block_similar {k l : Body} (hkl : same.Bodies k l) :
    (t .block k).Similar (t .block l) :=
  answers_same.mp (h .block k l hkl)

theorem scope_similar {k l : Body} (hkl : same.Bodies k l) :
    (t .scope k).Similar (t .scope l) :=
  answers_same.mp (h .scope k l hkl)

theorem iterate_similar {k l : Callback} (hkl : k.Similar l) (v : Value) :
    (t .iterate k v).Similar (t .iterate l v) :=
  answers_same.mp (h .iterate k l (calls_same.mpr hkl) v)

theorem forPar_similar {test test' : Test} {k l step step' : Callback} (htest : test.Similar test')
    (hkl : k.Similar l) (hstep : step.Similar step') (v : Value) :
    (t .forPar test k step v).Similar (t .forPar test' l step' v) :=
  answers_same.mp (h .forPar test test' k l step step' htest (calls_same.mpr hkl) hstep v)

theorem seq_similar {g g' : Source} (hg : same.Yields g g') : (t .seq g).Similar (t .seq g') :=
  answers_same.mp (h .seq g g' hg)

theorem run_similar {k l : Action} (hkl : Action.Similar k l) : (t .run k).Similar (t .run l) :=
  h .run k l (acts_same.mpr hkl)

theorem reify_similar {k l : Action} (hkl : Action.Similar k l) :
    (t .reify k).Similar (t .reify l) :=
  h .reify k l hkl

end Table.Parametric

/-! ## Escapes -/

namespace Escape

variable {send : Value → Prog Value} {catching : Value → Callback → Prog Value}
  {finish : Value → Prog Value}

theorem blockWith_similar {k l : Body} (hkl : same.Bodies k l) :
    (blockWith send catching finish k).Similar (blockWith send catching finish l) := by
  refine .holding hkl.holds (.bind_right _ fun tag => ?_)
  refine .bind (.holding hkl.holds ?_) fun result => .refl _
  exact answers_same.mp (hkl.code _ _ (calls_same.mpr (.refl _)))

end Escape

namespace Table.Parametric

variable {inner : Definition} (h : inner.table.Parametric)

include h

/-- What a layer keeps only calls its callbacks. -/
theorem keeping (layer : String) {op : Operation} {f : Signature op}
    (hf : (Seed.keeping inner layer).ops op = some f) : op.Related .same f f := by
  obtain rfl := Seed.eq_of_keeping hf
  exact h op

theorem native : (Escape.native inner).Parametric := by
  intro op f hf
  cases op with
  | bind | map | raise | iterate | forPar | cleanup =>
    obtain rfl := Option.some.inj hf
    exact h _
  | handle =>
    obtain rfl := Option.some.inj hf
    intro a k l hkl
    have hkl := calls_same.mp hkl
    refine answers_same.mpr (h.handle_similar a ⟨hkl.holds, fun v => ?_⟩)
    simp only [Closure.code_map]
    split
    · exact .refl _
    · exact hkl.code v
  | block | scope =>
    obtain rfl := Option.some.inj hf
    exact fun k l hkl => answers_same.mpr (Escape.blockWith_similar hkl)
  | _ => exact h.keeping "escape" hf

theorem threaded : (Escape.threaded inner).Parametric := by
  intro op f hf
  cases op with
  | bind =>
    obtain rfl := Option.some.inj hf
    intro a k l hkl
    have hkl := calls_same.mp hkl
    refine answers_same.mpr (h.bind_similar a ⟨hkl.holds, fun v => ?_⟩)
    simp only [Closure.code_map]
    split
    · exact .refl _
    · exact hkl.code v
  | map =>
    obtain rfl := Option.some.inj hf
    intro a k l hkl
    refine answers_same.mpr (h.map_similar a ⟨hkl.holds, fun v => ?_⟩)
    simp only [Closure.code_map]
    split
    · exact .refl _
    · exact hkl.code v
  | handle =>
    obtain rfl := Option.some.inj hf
    intro a k l hkl
    have hkl := calls_same.mp hkl
    refine answers_same.mpr (h.bind_similar a ⟨hkl.holds, fun v => ?_⟩)
    simp only [Closure.code_map]
    cases v.caught? .exception with
    | none => exact .refl _
    | some payload => exact (hkl.code payload).inside _
  | cleanup =>
    obtain rfl := Option.some.inj hf
    intro a k l hkl
    have hkl := acts_same.mp hkl
    refine answers_same.mpr (h.bind_similar a ⟨hkl.holds, fun v => ?_⟩)
    exact (hkl.code.inside _).bind_left _
  | block | scope =>
    obtain rfl := Option.some.inj hf
    exact fun k l hkl => answers_same.mpr (Escape.blockWith_similar hkl)
  | raise =>
    obtain rfl := Option.some.inj hf
    exact Operation.related_refl rfl _
  | _ => exact h.keeping "escape" hf

theorem escape : (Escape.seed inner).Parametric := by
  rw [Escape.seed]
  split
  · exact h.native
  · exact h.threaded

end Table.Parametric

/-! ## Carriers -/

namespace Packing

variable (w : Packing)

theorem bindWith_similar {α : Type 1} {op : Value → Closure α → Prog Value} {k l : Closure α}
    (hholds : k.holds.Similar l.holds) (hop : ∀ a, (op a k).Similar (op a l)) (a : Value) :
    (w.bindWith op a k).Similar (w.bindWith op a l) :=
  (Prog.Similar.holding hholds (.refl _)).bind fun a => (hop a).bind_left _

theorem unpacking_similar {k l : Callback} (hkl : k.Similar l) :
    Closure.Similar (w.unpacking k) (w.unpacking l) :=
  ⟨hkl.holds, fun v => (hkl.code v).bind_left _⟩

theorem unpacked_similar {k l : Action} (hkl : Action.Similar k l) :
    Action.Similar (k.map w.unpacked) (l.map w.unpacked) :=
  ⟨hkl.holds, hkl.code.bind_left _⟩

theorem blockBody_similar {k l : Body} (hkl : same.Bodies k l) :
    same.Bodies (w.blockBody k) (w.blockBody l) := by
  refine ⟨hkl.holds, fun escape escape' hescape => answers_same.mpr ?_⟩
  have hescape := calls_same.mp hescape
  have hpacked : Closure.Similar (escape.map fun send v => w.packed (send v))
      (escape'.map fun send v => w.packed (send v)) :=
    ⟨hescape.holds, fun v => (hescape.code v).bind_left _⟩
  exact (answers_same.mp (hkl.code _ _ (calls_same.mpr hpacked))).bind_left _

end Packing

theorem Table.Parametric.carrier {inner : Definition} (h : inner.table.Parametric) (w : Packing) :
    (w.seed inner).Parametric := by
  intro op f hf
  cases op with
  | map =>
    obtain rfl := Option.some.inj hf
    exact fun a k l hkl => answers_same.mpr
      (w.bindWith_similar hkl.holds (fun a => h.map_similar a hkl) a)
  | bind =>
    obtain rfl := Option.some.inj hf
    intro a k l hkl
    have hkl := calls_same.mp hkl
    refine answers_same.mpr (w.bindWith_similar hkl.holds (fun a => ?_) a)
    exact h.bind_similar a (w.unpacking_similar hkl)
  | handle =>
    obtain rfl := Option.some.inj hf
    intro a k l hkl
    have hkl := calls_same.mp hkl
    refine answers_same.mpr (w.bindWith_similar hkl.holds (fun a => ?_) a)
    exact h.handle_similar a (w.unpacking_similar hkl)
  | cleanup =>
    obtain rfl := Option.some.inj hf
    intro a k l hkl
    have hkl := acts_same.mp hkl
    refine answers_same.mpr (w.bindWith_similar hkl.holds (fun a => ?_) a)
    exact h.cleanup_similar a (w.unpacked_similar hkl)
  | block =>
    obtain rfl := Option.some.inj hf
    exact fun k l hkl => answers_same.mpr ((h.block_similar (w.blockBody_similar hkl)).bind_left _)
  | scope =>
    obtain rfl := Option.some.inj hf
    exact fun k l hkl => answers_same.mpr ((h.scope_similar (w.blockBody_similar hkl)).bind_left _)
  | iterate =>
    obtain rfl := Option.some.inj hf
    intro k l hkl v
    have hkl := w.unpacking_similar (calls_same.mp hkl)
    exact answers_same.mpr ((h.iterate_similar hkl v).bind_left _)
  | forPar =>
    obtain rfl := Option.some.inj hf
    intro test test' k l step step' htest hkl hstep v
    have hkl := w.unpacking_similar (calls_same.mp hkl)
    exact answers_same.mpr ((h.forPar_similar htest hkl hstep v).bind_left _)
  | run =>
    obtain rfl := Option.some.inj hf
    exact fun k l hkl => h.run_similar (w.unpacked_similar (acts_same.mp hkl))
  | reify =>
    obtain rfl := Option.some.inj hf
    exact fun k l hkl => (h.reify_similar hkl).bind_left _
  | seq => cases hf
  | _ => exact Operation.related_refl rfl f

/-! ## Coercion -/

theorem Correspondence.yielded_same {State : Type} (p : Prog (Option (Value × State))) :
    (do return same.yielded (← p)) = p := by
  have hid : (same.yielded : Option (Value × State) → Option (Value × State)) = id := by
    funext r
    cases r <;> rfl
  simp only [hid, id_eq, bind_pure]

theorem Correspondence.Yields.of_upTo {f f' : Value → Except Fault Value} {g g' : Source}
    (h : (upTo f).Yields g g') : (upTo f').Yields g g' := by
  obtain ⟨hholds, hheld, hstart, hstep⟩ := h
  exact .mk hholds hheld hstart hstep

theorem Correspondence.Yields.refl (g : Source) : same.Yields g g :=
  .mk (fun _ => .refl _) (.refl _) (.refl _) fun s v => .of_eq (yielded_same (g.step s v)).symm

/-- Mapping the yields of sources that correspond to themselves, so that they correspond. -/
theorem Correspondence.Yields.mapYields {C : Correspondence} {g g' : Source}
    (hg : same.Yields g g') {k l : Callback} (hkl : C.Calls false k l) :
    C.Yields (g.mapYields k) (g'.mapYields l) := by
  obtain ⟨hholds, hheld, hstart, hstep⟩ := hg
  rename_i State start start' step step' holds holds'
  refine .mk (fun s => (hholds s).append hkl.holds) (hheld.append hkl.holds) hstart fun s v => ?_
  have hresume : (Prog.holding (holds s) (step s v)).Similar
      (Prog.holding (holds' s) (step' s v)) :=
    (yielded_same (step' s v) ▸ hstep s v).holding (hholds s)
  refine (hresume.bind fun r => ?_).trans (.of_eq (bind_assoc _ _ _).symm)
  cases r with
  | none => exact .refl _
  | some r =>
    have hcall : C.Answers false (Prog.holding (holds r.2) (k.call r.1))
        (Prog.holding (holds' r.2) (l.call r.1)) :=
      ((hkl.code r.1).holding hkl.holds).holding (hholds r.2)
    refine (hcall.bind_left _).trans (.of_eq ?_)
    simp only [bind_assoc, pure_bind]
    rfl

section

variable {f : Value → Except Fault Value} {coerce : Value → Prog Value}
  (hcoerce : ∀ {p q}, (upTo f).Answers true p q → (p >>= coerce).Similar (q >>= coerce))

include hcoerce

theorem Coercion.coerced_similar {k l : Callback} (hkl : (upTo f).Calls true k l) :
    Closure.Similar (coerced coerce k) (coerced coerce l) :=
  ⟨hkl.holds, fun v => hcoerce (hkl.code v)⟩

theorem Coercion.coercedAction_similar {k l : Action} (hkl : (upTo f).Acts k l) :
    Action.Similar (coercedAction coerce k) (coercedAction coerce l) :=
  ⟨hkl.holds, hcoerce hkl.code⟩

theorem Coercion.coercedBody_bodies {k l : Body} (hkl : (upTo f).Bodies k l) :
    same.Bodies (coercedBody coerce k) (coercedBody coerce l) :=
  ⟨hkl.holds, fun escape escape' hescape => answers_same.mpr (hcoerce (hkl.code escape escape'
    ⟨hescape.holds, fun v => answers_upTo_false.mpr (answers_same.mp (hescape.code v))⟩))⟩

end

/-- What a coercion layer gives keeps the correspondence up to what its coercion does not tell
apart. -/
theorem Coercion.related_of_ops {inner : Definition} (h : inner.table.Parametric)
    {f : Value → Except Fault Value} (hcoerce : ∀ {p q}, (upTo f).Answers true p q →
      (p >>= inner.table .coerce).Similar (q >>= inner.table .coerce))
    {op : Operation} {g : Signature op} (hg : (seed inner).ops op = some g) :
    op.Related (upTo f) g g := by
  cases op with
  | map =>
    obtain rfl := Option.some.inj hg
    exact h .map
  | bind =>
    obtain rfl := Option.some.inj hg
    exact fun a k l hkl => answers_upTo_false.mpr
      (h.bind_similar a (coerced_similar hcoerce hkl))
  | handle =>
    obtain rfl := Option.some.inj hg
    exact fun a k l hkl => answers_upTo_false.mpr
      (h.handle_similar a (coerced_similar hcoerce hkl))
  | cleanup =>
    obtain rfl := Option.some.inj hg
    exact fun a k l hkl => answers_upTo_false.mpr
      (h.cleanup_similar a (coercedAction_similar hcoerce hkl))
  | iterate =>
    obtain rfl := Option.some.inj hg
    exact fun k l hkl v => answers_upTo_false.mpr
      (h.iterate_similar (coerced_similar hcoerce hkl) v)
  | forPar =>
    obtain rfl := Option.some.inj hg
    exact fun test test' k l step step' htest hkl hstep v => answers_upTo_false.mpr
      (h.forPar_similar htest (coerced_similar hcoerce hkl) hstep v)
  | block =>
    obtain rfl := Option.some.inj hg
    exact fun k l hkl => answers_upTo_false.mpr (h.block_similar (coercedBody_bodies hcoerce hkl))
  | scope =>
    obtain rfl := Option.some.inj hg
    exact fun k l hkl => answers_upTo_false.mpr (h.scope_similar (coercedBody_bodies hcoerce hkl))
  | run =>
    obtain rfl := Option.some.inj hg
    exact fun k l hkl => h.run_similar (coercedAction_similar hcoerce hkl)
  | seq =>
    obtain rfl := Option.some.inj hg
    exact fun g g' hg => answers_upTo_false.mpr
      (h.seq_similar (hg.of_upTo.mapYields (calls_same.mpr (.refl _))))
  | reify => cases hg
  | _ => exact Operation.related_refl rfl g

theorem Table.Parametric.coercion {inner : Definition} (h : inner.table.Parametric) :
    (Coercion.seed inner).Parametric :=
  fun _ _ hf => Coercion.related_of_ops h (fun hpq => (answers_same.mp hpq).bind_left _) hf

/-! ## Contexts -/

namespace Installer

variable (a : Installer) {C : Correspondence} {callback : Bool}

theorem answers_around {p q : Prog Value} (h : C.Answers callback p q) :
    C.Answers callback (a.around p) (a.around q) := by
  refine .bind_similar (.refl _) fun alive => ?_
  cases alive with
  | false => exact .throw _ _
  | true => exact h.within (.refl _)

theorem calls_callback {k l : Callback} (hkl : C.Calls callback k l) :
    C.Calls callback (a.callback k) (a.callback l) :=
  ⟨hkl.holds, fun v => a.answers_around (hkl.code v)⟩

theorem acts_around {k l : Action} (hkl : C.Acts k l) :
    C.Acts (k.map a.around) (l.map a.around) :=
  ⟨hkl.holds, a.answers_around hkl.code⟩

theorem bodies_body {k l : Body} (hkl : C.Bodies k l) : C.Bodies (a.body k) (a.body l) :=
  ⟨hkl.holds, fun escape escape' hescape => a.answers_around (hkl.code escape escape' hescape)⟩

theorem around_similar {α : Type} {p q : Prog α} (h : p.Similar q) :
    (a.around p).Similar (a.around q) := by
  refine Prog.Similar.bind_right _ fun alive => ?_
  cases alive with
  | false => exact .refl _
  | true => exact h.inside _

theorem yields_source {g g' : Source} (hg : C.Yields g g') :
    C.Yields (a.source g) (a.source g') := by
  obtain ⟨hholds, hheld, hstart, hstep⟩ := hg
  refine .mk hholds hheld (a.around_similar hstart) fun s v => ?_
  refine (a.around_similar (hstep s v)).trans ?_
  refine .trans (.bind_right _ fun alive => ?_) (.of_eq (bind_assoc _ _ _).symm)
  cases alive with
  | false => exact .refl _
  | true => exact .inside_bind _ _ fun r => .ok (C.yielded r)

/-- What runs its callbacks with a definition installed keeps every correspondence. -/
theorem wrapped_related {inner : Definition} {op : Operation} {f : Signature op}
    (h : op.Related C (inner.table op) (inner.table op)) (hf : a.wrapped inner op = some f) :
    op.Related C f f := by
  cases op with
  | bind | handle =>
    obtain rfl := Option.some.inj hf
    exact fun x k l hkl => h x _ _ (a.calls_callback hkl)
  | cleanup =>
    obtain rfl := Option.some.inj hf
    exact fun x k l hkl => h x _ _ (a.acts_around hkl)
  | iterate =>
    obtain rfl := Option.some.inj hf
    exact fun k l hkl v => h _ _ (a.calls_callback hkl) v
  | forPar =>
    obtain rfl := Option.some.inj hf
    exact fun test test' k l step step' htest hkl hstep v =>
      h test test' _ _ step step' htest (a.calls_callback hkl) hstep v
  | block | scope =>
    obtain rfl := Option.some.inj hf
    exact fun k l hkl => h _ _ (a.bodies_body hkl)
  | seq =>
    obtain rfl := Option.some.inj hf
    exact fun g g' hg => h _ _ (a.yields_source hg)
  | _ => cases hf

end Installer

/-- What a context layer gives keeps the correspondences that the operation beneath keeps. -/
theorem Operation.Related.context {C : Correspondence} {inner : Definition} {op : Operation}
    (h : op.Related C (inner.table op) (inner.table op)) {mode : ContextMode} {self : DefId}
    {f : Signature op} (hf : (inner.contextSeed mode self).ops op = some f) :
    op.Related C f f := by
  let a : Installer := ⟨inner.name ++ "+context", self⟩
  change a.ops inner mode op = some f at hf
  unfold Installer.ops at hf
  split at hf
  · obtain rfl := Option.some.inj hf
    exact fun k l hkl => h _ _ (a.acts_around hkl)
  · split at hf
    · exact a.wrapped_related h (‹a.wrapped inner _ = some _›.trans hf)
    · split at hf
      · obtain rfl := Option.some.inj hf
        exact h
      · obtain rfl := Seed.eq_of_keeping hf
        exact h

theorem Table.Parametric.context {inner : Definition} (h : inner.table.Parametric)
    (mode : ContextMode) (self : DefId) : (inner.contextSeed mode self).Parametric :=
  fun op _ hf => (h op).context hf

/-! ## Seeds -/

/-! ### Operations on values alone -/

theorem Closure.Similar.reifyTest {f g : Test} (h : f.Similar g) :
    f.reifyTest.Similar g.reifyTest := by
  have hmap : Closure.Similar
      (f.map fun code v => do return Value.bool (← Prog.keeping [v] (code v)))
      (g.map fun code v => do return Value.bool (← Prog.keeping [v] (code v))) :=
    ⟨h.holds, fun v => ((h.code v).inside _).bind_left _⟩
  exact hmap.reify

theorem Action.Similar.ignoring {k l : Action} (h : Action.Similar k l) :
    (Closure.ignoring k).Similar (Closure.ignoring l) :=
  ⟨h.holds, fun _ => h.code.inside _⟩

theorem Correspondence.Bodies.reifyBody {k l : Body} (h : same.Bodies k l) :
    (Closure.reifyBody k).Similar (Closure.reifyBody l) := by
  have hmap : Closure.Similar (k.map fun code (escape : Value) => code escape.callback)
      (l.map fun code (escape : Value) => code escape.callback) :=
    ⟨h.holds, fun escape => answers_same.mp (h.code _ _ (calls_same.mpr (.refl _)))⟩
  exact hmap.reify

theorem Source.generatorFrom_similar {State : Type} {start start' : Closure (Prog State)}
    {step step' : State → Value → Prog (Option (Value × State))} {holds holds' : State → Holding}
    (hholds : ∀ s, (holds s).Similar (holds' s))
    (hstep : ∀ s v, (step s v).Similar (step' s v)) (n : Nat) (state : State) :
    (generatorFrom ⟨State, start, step, holds⟩ n state).Similar
      (generatorFrom ⟨State, start', step', holds'⟩ n state) := by
  induction n generalizing state with
  | zero => exact ⟨hholds state, fun _ => .refl _⟩
  | succ n ih =>
    refine ⟨hholds state, fun v => (hstep state v).bind fun r => ?_⟩
    cases r with
    | none => exact .refl _
    | some r => exact (ih r.2).reify.bind_left _

theorem Correspondence.Yields.reify {g g' : Source} (h : same.Yields g g') :
    g.reify.Similar g'.reify := by
  obtain ⟨hholds, hheld, hstart, hstep⟩ := h
  have hstep (s v) := yielded_same _ ▸ hstep s v
  refine (Action.Similar.ignoring ⟨hheld, hstart.bind fun state => .bounded fun n => ?_⟩).reify
  exact (Source.generatorFrom_similar hholds hstep n state).reify

/-- A body is handed its callbacks as function values, and can only call those. -/
theorem Operation.related_ofBody (op : Operation) (program : List Value → Prog Value) :
    op.Related .same (op.ofBody program) (op.ofBody program) := by
  cases op with
  | bind | handle =>
    exact fun a k l hkl => answers_same.mpr ((calls_same.mp hkl).reify.bind_left _)
  | map => exact fun a k l hkl => answers_same.mpr (hkl.reify.bind_left _)
  | cleanup =>
    exact fun a k l hkl => answers_same.mpr ((acts_same.mp hkl).ignoring.reify.bind_left _)
  | block | scope => exact fun k l hkl => answers_same.mpr (hkl.reifyBody.bind_left _)
  | iterate => exact fun k l hkl v => answers_same.mpr ((calls_same.mp hkl).reify.bind_left _)
  | forPar =>
    intro test test' k l step step' htest hkl hstep v
    refine answers_same.mpr (htest.reifyTest.bind fun _ => ?_)
    exact (calls_same.mp hkl).reify.bind fun _ => hstep.reify.bind_left _
  | seq => exact fun g g' hg => answers_same.mpr (hg.reify.bind_left _)
  | run => exact fun k l hkl => (acts_same.mp hkl).ignoring.reify.bind_left _
  | reify => exact fun k l hkl => hkl.ignoring.reify.bind_left _
  | _ => exact related_refl rfl _

namespace Seed.Parametric

variable {s : Seed}

theorem set (h : s.Parametric) {op : Operation} {f : Signature op} (hf : op.Related .same f f) :
    (s.set op f).Parametric := by
  intro o g hg
  by_cases ho : o = op
  · subst ho
    rw [ops_set_self] at hg
    exact Option.some.inj hg ▸ hf
  · rw [ops_set_of_ne _ _ ho] at hg
    exact h o g hg

/-! ### Ready-made effects -/

theorem identity : Effects.identity.Parametric := by
  intro op f hf
  cases op with
  | bind =>
    obtain rfl := Option.some.inj hf
    exact fun a k l hkl => answers_same.mpr ((calls_same.mp hkl).call a)
  | run =>
    obtain rfl := Option.some.inj hf
    exact fun k l hkl => (acts_same.mp hkl).code.holding hkl.holds
  | pure | coerce =>
    obtain rfl := Option.some.inj hf
    exact Operation.related_refl rfl _
  | _ => cases hf

theorem onArgument_similar (name : String) (a : Value) {k l : Callback} (hkl : k.Similar l) :
    (Effects.onArgument name a k).Similar (Effects.onArgument name a l) := by
  unfold Effects.onArgument
  cases a.arg? name with
  | none => exact .refl _
  | some v => exact (hkl.call v).inside _

theorem either : Effects.either.Parametric := by
  intro op f hf
  cases op with
  | bind | handle =>
    obtain rfl := Option.some.inj hf
    exact fun a k l hkl => answers_same.mpr (onArgument_similar _ a (calls_same.mp hkl))
  | pure | coerce | raise =>
    obtain rfl := Option.some.inj hf
    exact Operation.related_refl rfl _
  | _ => cases hf

theorem bindEach_similar {k l : Callback} (hkl : k.Similar l) (vs found : List Value) :
    (Effects.bindEach k found vs).Similar (Effects.bindEach l found vs) := by
  induction vs generalizing found with
  | nil => exact .refl _
  | cons v vs ih =>
    refine (((hkl.call v).inside _).inside _).bind fun r => ?_
    exact .bind_right _ fun results => ih _

theorem results : Effects.results.Parametric := by
  intro op f hf
  cases op with
  | bind =>
    obtain rfl := Option.some.inj hf
    intro a k l hkl
    refine answers_same.mpr (.bind_right _ fun vs => ?_)
    exact (bindEach_similar (calls_same.mp hkl) vs []).bind_left _
  | pure | coerce | plus | empty =>
    obtain rfl := Option.some.inj hf
    exact Operation.related_refl rfl _
  | _ => cases hf

theorem boxed : Effects.boxed.Parametric := by
  intro op f hf
  cases op with
  | map =>
    obtain rfl := Option.some.inj hf
    exact fun a k l hkl => answers_same.mpr (.bind_right _ fun v => (hkl.call v).bind_left _)
  | pure | join =>
    obtain rfl := Option.some.inj hf
    exact Operation.related_refl rfl _
  | _ => cases hf

end Seed.Parametric

end EffectLayers
