import EffectLayers.Effects
import EffectLayers.Program.Invocation
import EffectLayers.Proofs.Assembly
import EffectLayers.Proofs.Program.Similar

/-!
# Operations that only call their callbacks

Two tables correspond if one has for effect values what the other one has for them in some other
representation, and their operations keep this up: on effect values and callbacks that correspond,
their answers do. What a callback answers need correspond only after what the operation does with
it first. A table that corresponds to itself, whatever the callbacks, can do nothing with a callback
but call it. What is derived and what is layered on top keeps this.

## Main definitions

* `Correspondence`: the representation of effect values, and what a callback's answer comes to.
* `Correspondence.Answers`: programs whose answers correspond.
* `Correspondence.Calls`, `Correspondence.Acts`, `Correspondence.Bodies`, `Correspondence.Yields`:
  closures and sources that correspond.
* `Operation.Related`: operations that keep a correspondence.
* `Table.Parametric`, `Seed.Parametric`: operations that only call their callbacks.

## Main statements

* `Seed.Parametric.table`: what is derived only calls its callbacks.
-/

namespace EffectLayers

/-- How effect values are represented that are others in another table. -/
structure Correspondence where
  value : Value → Value
  /-- What the answer of a callback comes to, where that is taken for an effect value. -/
  settle : Value → Except Fault Value
  references_value : ∀ v, (value v).references = v.references

namespace Correspondence

/-- Effect values are represented by themselves, and what callbacks answer comes to what `f` makes
of it. -/
def upTo (f : Value → Except Fault Value) : Correspondence := ⟨id, f, fun _ => rfl⟩

/-- Effect values are represented by themselves. -/
def same : Correspondence := upTo .ok

variable (C : Correspondence)

/-- The first program answers what the second one does, in its representation. If the answers are
those of a callback, it is enough that they come to the same. -/
def Answers : (callback : Bool) → Prog Value → Prog Value → Prop
  | false, p, q => p.Similar do return C.value (← q)
  | true, p, q => (p >>= fun v => .done (C.settle v)).Similar
    (q >>= fun v => .done (C.settle (C.value v)))

/-- Callbacks that hold similar things and whose answers correspond, on every argument. -/
structure Calls (callback : Bool) (f g : Callback) : Prop where
  holds : f.holds.Similar g.holds
  code : ∀ v, C.Answers callback (f.code v) (g.code v)

/-- Actions that hold similar things and whose answers correspond. -/
structure Acts (f g : Action) : Prop where
  holds : f.holds.Similar g.holds
  code : C.Answers true f.code g.code

/-- Bodies that hold similar things and whose answers correspond, if their escapes do. -/
structure Bodies (f g : Body) : Prop where
  holds : f.holds.Similar g.holds
  code : ∀ escape escape', C.Calls false escape escape' →
    C.Answers true (f.code escape) (g.code escape')

/-- What a step of a source answers, with its yield in the representation. -/
def yielded {State : Type} : Option (Value × State) → Option (Value × State) :=
  Option.map (Prod.map C.value id)

/-- Sources whose yields correspond, step by step. -/
inductive Yields : Source → Source → Prop where
  | mk {State : Type} {start start' : Closure (Prog State)}
      {step step' : State → Value → Prog (Option (Value × State))} {holds holds' : State → Holding}
      (hholds : ∀ s, (holds s).Similar (holds' s)) (hheld : start.holds.Similar start'.holds)
      (hstart : start.code.Similar start'.code)
      (hstep : ∀ s v, (step s v).Similar do return C.yielded (← step' s v)) :
      Yields ⟨State, start, step, holds⟩ ⟨State, start', step', holds'⟩

end Correspondence

/-- Actions that hold similar things and do similar things. -/
structure Action.Similar (f g : Action) : Prop where
  holds : f.holds.Similar g.holds
  code : f.code.Similar g.code

/-- Operations whose answers correspond if their effect values and callbacks do. What is done with
a carrier's boundary, or takes a raw result for an effect value, is left out. -/
def Operation.Related (C : Correspondence) : (op : Operation) → Signature op → Signature op → Prop
  | .pure, f, g | .raise, f, g => ∀ v, C.Answers false (f v) (g v)
  | .bind, f, g | .handle, f, g =>
    ∀ a k l, C.Calls true k l → C.Answers false (f (C.value a) k) (g a l)
  | .map, f, g => ∀ a (k l : Callback), k.Similar l → C.Answers false (f (C.value a) k) (g a l)
  | .pair, f, g | .plus, f, g => ∀ a b, C.Answers false (f (C.value a) (C.value b)) (g a b)
  | .const, f, g | .unshiftTo, f, g => ∀ a v, C.Answers false (f (C.value a) v) (g a v)
  | .arr, f, g | .alt, f, g => ∀ items, C.Answers false (f (items.map C.value)) (g items)
  | .empty, f, g => C.Answers false f g
  | .opt, f, g => ∀ a, C.Answers false (f (C.value a)) (g a)
  | .cleanup, f, g => ∀ a k l, C.Acts k l → C.Answers false (f (C.value a) k) (g a l)
  | .block, f, g | .scope, f, g => ∀ k l, C.Bodies k l → C.Answers false (f k) (g l)
  | .iterate, f, g => ∀ k l, C.Calls true k l → ∀ v, C.Answers false (f k v) (g l v)
  | .forPar, f, g => ∀ (test test' : Test) k l (step step' : Callback), test.Similar test' →
    C.Calls true k l → step.Similar step' →
      ∀ v, C.Answers false (f test k step v) (g test' l step' v)
  | .seq, f, g => ∀ source source', C.Yields source source' → C.Answers false (f source) (g source')
  | .run, f, g => ∀ k l, C.Acts k l → (f k).Similar (g l)
  | .reify, f, g => ∀ k l : Action, k.Similar l → (f k).Similar (g l)
  | .join, _, _ | .coerce, _, _ | .reflect, _, _ | .pack, _, _ | .unpack, _, _ => True

/-- Whether the operation is given a callback or a source. -/
def Operation.calls : Operation → Bool
  | .bind | .map | .handle | .cleanup | .block | .scope => true
  | .iterate | .forPar | .seq | .run | .reify => true
  | _ => false

/-- The operations of a table only call their callbacks. -/
def Table.Parametric (t : Table) : Prop := ∀ op : Operation, op.Related .same (t op) (t op)

/-- The operations that a seed gives only call their callbacks. -/
def Seed.Parametric (s : Seed) : Prop := ∀ op f, s.ops op = some f → op.Related .same f f

/-! ## Answers that correspond -/

namespace Correspondence

variable {C : Correspondence} {callback : Bool} {α : Type}

namespace Answers

theorem of_false {p q : Prog Value} (h : C.Answers false p q) (callback : Bool) :
    C.Answers callback p q := by
  cases callback with
  | false => exact h
  | true =>
    refine (h.bind_left _).trans (.of_eq ?_)
    simp only [bind_assoc, pure_bind]

theorem pure (v : Value) (callback : Bool) :
    C.Answers callback (Pure.pure (C.value v)) (Pure.pure v) := by
  refine of_false ?_ callback
  exact .refl (Pure.pure (C.value v))

theorem throw (e : Fault) (callback : Bool) :
    C.Answers callback (MonadExcept.throw e) (MonadExcept.throw e) := by
  refine of_false ?_ callback
  exact .refl (MonadExcept.throw e)

theorem halt (h : Halt) (callback : Bool) : C.Answers callback (.halt h) (.halt h) := by
  refine of_false ?_ callback
  exact .refl (.halt h)

/-- Programs that go on from similar ones. -/
theorem bind_similar {p q : Prog α} {f g : α → Prog Value} (h : p.Similar q)
    (hf : ∀ a, C.Answers callback (f a) (g a)) : C.Answers callback (p >>= f) (q >>= g) := by
  cases callback with
  | false => exact (h.bind hf).trans (.of_eq (bind_assoc _ _ _).symm)
  | true =>
    refine .trans (.of_eq (bind_assoc _ _ _)) ?_
    exact (h.bind hf).trans (.of_eq (bind_assoc _ _ _).symm)

/-- Programs that go on from results of which the first one is computed from the second one. -/
theorem bind_map {β : Type} {p : Prog β} {q : Prog α} {r : α → β}
    (h : p.Similar (do return r (← q))) {f : β → Prog Value} {g : α → Prog Value}
    (hf : ∀ a, C.Answers callback (f (r a)) (g a)) :
    C.Answers callback (p >>= f) (q >>= g) := by
  have hleft : (p >>= f).Similar (q >>= fun a => f (r a)) := by
    refine (h.bind_left f).trans (.of_eq ?_)
    simp only [bind_assoc, pure_bind]
  have hright : C.Answers callback (q >>= fun a => f (r a)) (q >>= g) := bind_similar (.refl q) hf
  cases callback with
  | false => exact hleft.trans hright
  | true => exact (hleft.bind_left _).trans hright

/-- Programs that go on from effect values that correspond. -/
theorem bind {p q : Prog Value} {f g : Value → Prog Value} (h : C.Answers false p q)
    (hf : ∀ a, C.Answers callback (f (C.value a)) (g a)) :
    C.Answers callback (p >>= f) (q >>= g) :=
  bind_map h hf

theorem within {s s' : Scope} (hs : s.Similar s') {p q : Prog Value}
    (hpq : C.Answers callback p q) :
    C.Answers callback (Prog.inside s p) (Prog.inside s' q) := by
  cases callback with
  | false =>
    exact (Prog.Similar.within hs hpq .done).trans (.inside_bind _ q fun v => .ok (C.value v))
  | true =>
    -- What the answers come to is computed inside the scope, where they correspond.
    refine (Prog.Similar.inside_bind _ p _).symm.trans ?_
    exact (Prog.Similar.within hs hpq .done).trans (.inside_bind _ q _)

theorem holding {g h : Holding} (hgh : g.Similar h) {p q : Prog Value}
    (hpq : C.Answers callback p q) :
    C.Answers callback (Prog.holding g p) (Prog.holding h q) :=
  hpq.within (.holding hgh)

theorem keeping (vs : List Value) {p q : Prog Value} (hpq : C.Answers callback p q) :
    C.Answers callback (Prog.keeping vs p) (Prog.keeping vs q) :=
  hpq.holding (.refl _)

theorem bounded {f g : Nat → Prog Value} (h : ∀ n, C.Answers callback (f n) (g n)) :
    C.Answers callback (.bounded f) (.bounded g) := by
  cases callback <;> exact .bounded h

end Answers

/-! ### Effect values represented by themselves -/

variable {f : Value → Except Fault Value}

theorem answers_upTo_false {p q : Prog Value} : (upTo f).Answers false p q ↔ p.Similar q := by
  have hq : (do return (upTo f).value (← q)) = q := bind_pure q
  rw [Answers, hq]

theorem answers_upTo_true {p q : Prog Value} : (upTo f).Answers true p q ↔
    (p >>= fun v => .done (f v)).Similar (q >>= fun v => .done (f v)) :=
  .rfl

@[simp] theorem answers_same {p q : Prog Value} : same.Answers callback p q ↔ p.Similar q := by
  cases callback with
  | false => exact answers_upTo_false
  | true =>
    have hdone (p : Prog Value) : (p >>= fun v => .done (.ok v)) = p := bind_pure p
    rw [same, answers_upTo_true, hdone, hdone]

theorem calls_same {f g : Callback} : same.Calls callback f g ↔ f.Similar g :=
  ⟨fun h => ⟨h.holds, fun v => answers_same.mp (h.code v)⟩,
    fun h => ⟨h.holds, fun v => answers_same.mpr (h.code v)⟩⟩

theorem acts_same {f g : Action} : same.Acts f g ↔ Action.Similar f g :=
  ⟨fun h => ⟨h.holds, answers_same.mp h.code⟩, fun h => ⟨h.holds, answers_same.mpr h.code⟩⟩

end Correspondence

open Correspondence

/-- What is given nothing to call corresponds to itself. -/
theorem Operation.related_refl {f : Value → Except Fault Value} {op : Operation}
    (hop : op.calls = false) (g : Signature op) : op.Related (upTo f) g g := by
  cases op with
  | pure | raise | opt => exact fun v => answers_upTo_false.mpr (.refl _)
  | pair | plus | const | unshiftTo => exact fun a b => answers_upTo_false.mpr (.refl _)
  | arr | alt =>
    intro items
    rw [show items.map (upTo f).value = items from List.map_id items]
    exact answers_upTo_false.mpr (.refl _)
  | empty =>
    change (upTo f).Answers false g g
    exact answers_upTo_false.mpr (.refl _)
  | join | coerce | reflect | pack | unpack => trivial
  | _ => cases hop

/-! ## What is derived -/

theorem Value.bindByMethod_similar (a : Value) {f g : Callback} (h : f.Similar g) :
    (a.bindByMethod f).Similar (a.bindByMethod g) := by
  cases a with
  | object id text method => exact h.reify.bind_left _
  | only id content => exact (h.call content).holding (.refl _)
  | carrier brand inner => exact h.reify.bind_left _
  | _ => exact .refl _

namespace Seed

/-- The walk over a source, given how values are sequenced. -/
theorem answers_seqFrom {C : Correspondence} {bind bind' : Signature .bind}
    {lift lift' : Signature .pure} (hbind : Operation.Related C .bind bind bind')
    (hlift : Operation.Related C .pure lift lift') {State : Type}
    {start start' : Closure (Prog State)}
    {step step' : State → Value → Prog (Option (Value × State))} {holds holds' : State → Holding}
    (hholds : ∀ s, (holds s).Similar (holds' s))
    (hstep : ∀ s v, (step s v).Similar (do return C.yielded (← step' s v)))
    (n : Nat) (state : State) (input : Value) :
    C.Answers false (seqFrom bind lift ⟨State, start, step, holds⟩ n state input)
      (seqFrom bind' lift' ⟨State, start', step', holds'⟩ n state input) := by
  induction n generalizing state input with
  | zero => exact .halt _ false
  | succ n ih =>
    refine .holding (hholds state) ?_
    have hresume := ((hstep state input).holding_map (hholds state)).holding_map
      (.refl { values := [input] })
    refine .bind_map hresume fun r => ?_
    cases r with
    | none => exact hlift input
    | some r =>
      exact .keeping _ (hbind _ _ _ ⟨hholds r.2, fun v => .of_false (ih r.2 v) true⟩)

theorem iterateFrom_similar {bind : Signature .bind}
    (hbind : Operation.Related .same .bind bind bind) {k l : Callback} (hkl : k.Similar l) (n : Nat)
    (v : Value) :
    (iterateFrom bind k n v).Similar (iterateFrom bind l n v) := by
  induction n generalizing v with
  | zero => exact .refl _
  | succ n ih =>
    refine (hkl.call v).bind fun r => ?_
    exact answers_same.mp (hbind r _ _ (calls_same.mpr ⟨hkl.holds, ih⟩))

theorem forParFrom_similar {bind : Signature .bind}
    (hbind : Operation.Related .same .bind bind bind) (lift : Value → Prog Value)
    {test test' : Test} {k l step step' : Callback}
    (htest : test.Similar test') (hkl : k.Similar l) (hstep : step.Similar step') (n : Nat)
    (v : Value) :
    (forParFrom bind lift test k step n v).Similar (forParFrom bind lift test' l step' n v) := by
  have hloop : (test.holds ++ k.holds ++ step.holds).Similar
      (test'.holds ++ l.holds ++ step'.holds) :=
    (htest.holds.append hkl.holds).append hstep.holds
  induction n generalizing v with
  | zero => exact .refl _
  | succ n ih =>
    refine (((htest.call v).holding (.refl _)).holding hloop).bind fun go => ?_
    cases go with
    | false => exact (Prog.Similar.refl (lift v)).holding hloop
    | true =>
      refine (((hkl.call v).holding (.refl _)).holding hloop).bind fun r => ?_
      refine answers_same.mp (hbind r _ _ (calls_same.mpr ⟨?_, fun w => ?_⟩))
      · exact (Holding.Similar.refl _).append hloop
      · exact ((hstep.call v).bind ih).holding (.refl _)

namespace Parametric

variable {s : Seed} (h : s.Parametric)

include h

theorem bind_related : Operation.Related .same .bind s.bind s.bind := by
  intro a k l hkl
  simp only [answers_same, calls_same] at hkl ⊢
  cases hbind : s.ops .bind with
  | some bind =>
    simp only [Seed.bind, hbind]
    exact answers_same.mp (h .bind bind hbind a k l (calls_same.mpr hkl))
  | none =>
    cases hjoin : s.ops .join with
    | none =>
      simp only [Seed.bind, hbind, hjoin]
      exact a.bindByMethod_similar hkl
    | some join =>
      cases hmap : s.ops .map with
      | none =>
        simp only [Seed.bind, hbind, hjoin, hmap]
        exact a.bindByMethod_similar hkl
      | some map =>
        simp only [Seed.bind, hbind, hjoin, hmap]
        exact (answers_same.mp (h .map map hmap a k l hkl)).bind_left join

theorem bind_similar (a : Value) {k l : Callback} (hkl : k.Similar l) :
    (s.bind a k).Similar (s.bind a l) :=
  answers_same.mp (h.bind_related a k l (calls_same.mpr hkl))

/-- An operation of the table corresponds to itself if it does where it is derived. -/
theorem getD_related (op : Operation) {f : Signature op}
    (hf : s.ops op = none → op.Related .same f f) :
    op.Related .same ((s.ops op).getD f) ((s.ops op).getD f) := by
  cases hop : s.ops op with
  | some g => exact h op g hop
  | none => exact hf hop

theorem handle_related : Operation.Related .same .handle s.handle s.handle :=
  h.getD_related .handle fun _ _ _ _ _ => answers_same.mpr (.refl _)

theorem handle_similar (a : Value) {k l : Callback} (hkl : k.Similar l) :
    (s.handle a k).Similar (s.handle a l) :=
  answers_same.mp (h.handle_related a k l (calls_same.mpr hkl))

theorem block_related : Operation.Related .same .block s.block s.block :=
  h.getD_related .block fun _ _ _ _ => answers_same.mpr (.refl _)

theorem scope_related : Operation.Related .same .scope s.scope s.scope := by
  intro k l hkl
  cases hscope : s.ops .scope with
  | some scope =>
    simp only [Seed.scope, hscope]
    exact h .scope scope hscope k l hkl
  | none =>
    cases hblock : s.ops .block with
    | some block =>
      simp only [Seed.scope, hscope, hblock]
      exact h .block block hblock k l hkl
    | none =>
      simp only [Seed.scope, hscope, hblock]
      exact answers_same.mpr (.refl _)

theorem map_related (lift : Value → Prog Value) :
    Operation.Related .same .map (s.map lift) (s.map lift) := by
  refine h.getD_related .map fun _ a k l hkl => answers_same.mpr (h.bind_similar a ?_)
  exact ⟨hkl.holds, fun v => (hkl.code v).bind_left _⟩

theorem cleanup_related (lift : Value → Prog Value) :
    Operation.Related .same .cleanup (s.cleanup lift) (s.cleanup lift) := by
  refine h.getD_related .cleanup fun _ a k l hkl => answers_same.mpr ?_
  obtain ⟨hholds, hcode⟩ := acts_same.mp hkl
  have hkept (v : Value) : (Prog.keeping [v] k.code).Similar (Prog.keeping [v] l.code) :=
    hcode.inside _
  refine .bind (.holding hholds (h.handle_similar a ⟨hholds, fun e => ?_⟩)) fun handled => ?_
  · exact (hkept e).bind_left _
  · exact h.bind_similar handled ⟨hholds, fun v => (hkept v).bind_left _⟩

theorem iterate_related : Operation.Related .same .iterate s.iterate s.iterate := by
  refine h.getD_related .iterate fun _ k l hkl v => answers_same.mpr ?_
  have hkl := calls_same.mp hkl
  exact .holding hkl.holds (.bounded fun n => iterateFrom_similar h.bind_related hkl n v)

theorem forPar_related (lift : Value → Prog Value) :
    Operation.Related .same .forPar (s.forPar lift) (s.forPar lift) := by
  refine h.getD_related .forPar fun _ test test' k l step step' htest hkl hstep v => ?_
  refine answers_same.mpr (.bounded fun n => ?_)
  exact forParFrom_similar h.bind_related lift htest (calls_same.mp hkl) hstep n v

theorem reify_related : Operation.Related .same .reify s.reify s.reify :=
  h.getD_related .reify fun _ _ _ hkl => hkl.code.holding hkl.holds

theorem run_related : Operation.Related .same .run s.run s.run :=
  h.getD_related .run fun _ k l hkl => h.reify_related k l (acts_same.mp hkl)

end Parametric

/-- What a derived `seq` does is determined by how values are sequenced. -/
theorem seq_related_of_none {C : Correspondence} {s s' : Seed} {lift lift' : Value → Prog Value}
    (hseq : s.ops .seq = none) (hseq' : s'.ops .seq = none)
    (hbind : Operation.Related C .bind s.bind s'.bind)
    (hlift : Operation.Related C .pure lift lift') :
    Operation.Related C .seq (s.seq lift) (s'.seq lift') := by
  rintro _ _ ⟨hholds, hheld, hstart, hstep⟩
  simp only [Seed.seq, hseq, hseq', Option.getD_none]
  refine .holding hheld (.bounded fun n => .bind_similar (hstart.holding hheld) fun state => ?_)
  exact answers_seqFrom hbind hlift hholds hstep n state .unit

/-- What is derived only calls its callbacks. -/
theorem Parametric.table {s : Seed} (h : s.Parametric) (lift : Value → Prog Value) :
    (s.table lift).Parametric := by
  intro op
  cases op with
  | bind => exact h.bind_related
  | map => exact h.map_related lift
  | handle => exact h.handle_related
  | cleanup => exact h.cleanup_related lift
  | block => exact h.block_related
  | scope => exact h.scope_related
  | iterate => exact h.iterate_related
  | forPar => exact h.forPar_related lift
  | run => exact h.run_related
  | reify => exact h.reify_related
  | seq =>
    cases hseq : s.ops .seq with
    | some seq =>
      simp only [Seed.table, Seed.seq, hseq]
      exact h .seq seq hseq
    | none => exact seq_related_of_none hseq hseq h.bind_related fun v => answers_same.mpr (.refl _)
  | _ => exact Operation.related_refl rfl _

theorem Parametric.definition? {s : Seed} (h : s.Parametric) {id : DefId} {d : Definition}
    (hd : s.definition? id = some d) : d.table.Parametric := by
  obtain ⟨lift, -, rfl⟩ := Option.map_eq_some_iff.mp hd
  exact h.table lift

/-! ### Operations that a definition derives -/

section

variable {s s' : Seed} {id id' : DefId} {d d' : Definition}

theorem ops_eq_none_of_definition? (hd : s.definition? id = some d) {op : Operation}
    (hop : d.supplies op = false) : s.ops op = none :=
  ops_eq_none ((supplies_of_definition? hd op).symm.trans hop)

theorem table_const (hd : s.definition? id = some d) (h : d.supplies .const = false)
    (a v : Value) : d.table .const a v = d.table .map a ⟨fun _ => pure v, { values := [v] }⟩ := by
  have hnone := ops_eq_none_of_definition? hd h
  obtain ⟨lift, -, rfl⟩ := Option.map_eq_some_iff.mp hd
  simp only [Seed.table, Seed.const, hnone, Option.getD_none]

theorem table_unshiftTo (hd : s.definition? id = some d) (h : d.supplies .unshiftTo = false)
    (a items : Value) : d.table .unshiftTo a items = d.table .map a
      ⟨fun v => do return .list (v :: (← items.asList)), { values := [items] }⟩ := by
  have hnone := ops_eq_none_of_definition? hd h
  obtain ⟨lift, -, rfl⟩ := Option.map_eq_some_iff.mp hd
  simp only [Seed.table, Seed.unshiftTo, hnone, Option.getD_none]

theorem table_opt (hd : s.definition? id = some d) (h : d.supplies .opt = false) (a : Value) :
    d.table .opt a = (do d.table .plus a (← Prog.keeping [a] (d.table .pure .unit))) := by
  have hnone := ops_eq_none_of_definition? hd h
  obtain ⟨lift, -, rfl⟩ := Option.map_eq_some_iff.mp hd
  simp only [Seed.table, Seed.opt, hnone, Option.getD_none]

/-- What a derived `seq` does is determined by how values are sequenced. -/
theorem seq_related {C : Correspondence} (hd : s.definition? id = some d)
    (hd' : s'.definition? id' = some d') (h : d.supplies .seq = false)
    (h' : d'.supplies .seq = false)
    (hbind : Operation.Related C .bind (d.table .bind) (d'.table .bind))
    (hpure : Operation.Related C .pure (d.table .pure) (d'.table .pure)) :
    Operation.Related C .seq (d.table .seq) (d'.table .seq) := by
  have hnone := ops_eq_none_of_definition? hd h
  have hnone' := ops_eq_none_of_definition? hd' h'
  obtain ⟨lift, -, rfl⟩ := Option.map_eq_some_iff.mp hd
  obtain ⟨lift', -, rfl⟩ := Option.map_eq_some_iff.mp hd'
  exact seq_related_of_none hnone hnone' hbind hpure

end

end Seed

end EffectLayers
