import EffectLayers.Effects
import EffectLayers.Program.Invocation
import EffectLayers.Proofs.Assembly

/-!
# Kinds of programs

Deriving operations, adding layers and letting a body stand in for an operation put programs
together in a few ways. A kind of programs that is closed under these contains every program of a
definition if it contains those that the definition was made from.

## Main definitions

* `Prog.Kind`: programs that are closed under what definitions are made by.
* `Operation.Of`: an operation whose programs are of a kind if its callbacks are.
* `Table.Of`, `Seed.Of`: every operation is, and every one that is given.

## Main statements

* `Seed.Of.table`: what is derived is of the kind.
* `Table.Of.escape`, `Table.Of.carrier` and the like: so is what a layer gives.
* `Operation.of_ofBody`: so is an operation that a body of the kind stands in for.
* `Table.Of.answer`: so is what a definition answers.
-/

namespace EffectLayers

/-- Whether the fault says that a definition is gone. -/
def Fault.detaches : Fault → Bool
  | detached _ => true
  | _ => false

/-- Programs that are closed under what definitions are made by. Nothing is said of those that
install a definition or find that one is gone. -/
structure Prog.Kind where
  Of {α : Type} (p : Prog α) : Prop
  pure {α : Type} (a : α) : Of (Pure.pure a)
  throw {α : Type} {e : Fault} (he : e.detaches = false) : Of (MonadExcept.throw e : Prog α)
  halt {α : Type} (h : Halt) : Of (Prog.halt h : Prog α)
  bounded {α : Type} {next : Nat → Prog α} (h : ∀ n, Of (next n)) : Of (Prog.bounded next)
  bind {α β : Type} {p : Prog α} {f : α → Prog β} (hp : Of p) (hf : ∀ a, Of (f a)) : Of (p >>= f)
  holding {α : Type} (g : Holding) {p : Prog α} (hp : Of p) : Of (Prog.holding g p)
  freshScope : Of (Prog.query .freshScope)
  adopted : Of (Prog.query .adopted)
  reify {f : Callback} (hf : ∀ v, Of (f.code v)) : Of f.reify
  call (f v : Value) : Of (f.call v)
  method (m : Method) (v : Value) (args : List Value) : Of (v.method m args)

/-- A callback whose programs are of the kind. -/
def Closure.Of (f : Callback) (K : Prog.Kind) : Prop := ∀ v, K.Of (f.code v)

/-- A source whose steps are of the kind. -/
structure Source.Of (g : Source) (K : Prog.Kind) : Prop where
  start : K.Of g.start.code
  step : ∀ s v, K.Of (g.step s v)

/-- A body of a block that is of the kind if the escape is that it is given. -/
def Closure.OfBody (body : Body) (K : Prog.Kind) : Prop :=
  ∀ k : Callback, k.Of K → K.Of (body.code k)

/-- An operation whose programs are of the kind, given callbacks that are. -/
def Operation.Of (K : Prog.Kind) : (op : Operation) → Signature op → Prop
  | .pure | .raise | .coerce | .join | .opt | .reflect | .pack | .unpack =>
    fun p => ∀ v, K.Of (p v)
  | .pair | .const | .unshiftTo | .plus => fun p => ∀ a b, K.Of (p a b)
  | .bind | .map | .handle => fun p => ∀ a (f : Callback), f.Of K → K.Of (p a f)
  | .arr | .alt => fun p => ∀ items, K.Of (p items)
  | .empty => fun p => K.Of p
  | .cleanup => fun p => ∀ a (f : Action), K.Of f.code → K.Of (p a f)
  | .block | .scope => fun p => ∀ body : Body, body.OfBody K → K.Of (p body)
  | .iterate => fun p => ∀ (body : Callback) v, body.Of K → K.Of (p body v)
  | .forPar => fun p => ∀ (test : Test) (body step : Callback) v,
    (∀ v, K.Of (test.code v)) → body.Of K → step.Of K → K.Of (p test body step v)
  | .seq => fun p => ∀ g : Source, g.Of K → K.Of (p g)
  | .run | .reify => fun p => ∀ f : Action, K.Of f.code → K.Of (p f)

/-- Every operation is of the kind. -/
def Table.Of (t : Table) (K : Prog.Kind) : Prop := ∀ op : Operation, op.Of K (t op)

/-- Every operation that the seed gives is of the kind. -/
def Seed.Of (s : Seed) (K : Prog.Kind) : Prop := ∀ op f, s.ops op = some f → op.Of K f

variable {K : Prog.Kind}

/-! ## Callbacks -/

namespace Prog.Kind

theorem keeping (vs : List Value) {α : Type} {p : Prog α} (hp : K.Of p) :
    K.Of (Prog.keeping vs p) :=
  K.holding _ hp

theorem asBool (v : Value) : K.Of v.asBool := by
  cases v <;> first | exact K.pure _ | exact K.throw rfl

theorem asList (v : Value) : K.Of v.asList := by
  cases v <;> first | exact K.pure _ | exact K.throw rfl

theorem asStep (v : Value) : K.Of v.asStep := by
  unfold Value.asStep
  split
  · exact K.pure _
  · refine K.bind (asList _) fun items => ?_
    split
    · exact K.pure _
    · exact K.throw rfl

end Prog.Kind

namespace Closure

theorem Of.call {f : Callback} (h : f.Of K) (v : Value) : K.Of (f.call v) := K.holding _ (h v)

theorem of_ignoring {f : Action} (h : K.Of f.code) : f.ignoring.Of K := fun v => K.keeping [v] h

theorem of_reifyBody {f : Body} (h : f.OfBody K) : K.Of f.reifyBody :=
  K.reify fun v => h v.callback fun u => K.call v u

theorem of_reifyTest {f : Test} (h : ∀ v, K.Of (f.code v)) : K.Of f.reifyTest :=
  K.reify fun v => K.bind (K.keeping [v] (h v)) fun _ => K.pure _

end Closure

theorem Value.of_callback (f : Value) : f.callback.Of K := fun v => K.call f v

namespace Source

variable {g : Source}

theorem Of.resume (h : g.Of K) (s : g.State) (v : Value) : K.Of (g.resume s v) :=
  K.holding _ (h.step s v)

theorem Of.generatorFrom (h : g.Of K) (n : Nat) (s : g.State) : (g.generatorFrom n s).Of K := by
  induction n generalizing s with
  | zero => exact fun v => K.halt _
  | succ n ih =>
    refine fun v => K.bind (h.step s v) fun r => ?_
    cases r with
    | none => exact K.pure _
    | some r => exact K.bind (K.reify (ih r.2)) fun _ => K.pure _

theorem Of.generator (h : g.Of K) (s : g.State) : K.Of (g.generator s) :=
  K.bounded fun n => K.reify (h.generatorFrom n s)

theorem Of.reify (h : g.Of K) : K.Of g.reify := by
  have hstart : K.Of (do g.generator (← g.start.code)) := K.bind h.start fun s => h.generator s
  exact K.reify (Closure.of_ignoring (f := ⟨_, g.start.holds⟩) hstart)

theorem Of.mapYields (h : g.Of K) {f : Callback} (hf : f.Of K) : (g.mapYields f).Of K := by
  refine ⟨h.start, fun s v => K.bind (h.resume s v) fun r => ?_⟩
  cases r with
  | none => exact K.pure _
  | some r => exact K.bind (K.holding _ (hf.call r.1)) fun _ => K.pure _

theorem of_ofValue (f : Value) : (ofValue f).Of K :=
  ⟨K.call f .unit, fun g v => K.bind (K.call g v) K.asStep⟩

end Source

theorem Value.of_bindByMethod (a : Value) {f : Callback} (hf : f.Of K) :
    K.Of (a.bindByMethod f) := by
  cases a with
  | object id text method => exact K.bind (K.reify hf) fun f => K.keeping _ (K.call _ _)
  | only id content => exact K.keeping _ (hf.call content)
  | mute id label => exact K.bind K.adopted fun _ => K.throw rfl
  | carrier brand inner => exact K.bind (K.reify hf) fun f => K.keeping _ (K.method _ _ _)
  | _ => exact K.throw rfl

/-! ## What is derived -/

namespace Seed.Of

variable {s : Seed} {lift : Value → Prog Value} (h : s.Of K)

/-- What is given is of the kind. -/
theorem given_or {op : Operation} {derived : Signature op} (hs : s.Of K)
    (hderived : op.Of K derived) : op.Of K ((s.ops op).getD derived) := by
  cases hop : s.ops op with
  | none => exact hderived
  | some f => exact hs op f hop

include h

theorem bind : Operation.Of K .bind s.bind := by
  unfold Seed.bind
  split
  · exact h .bind _ ‹_›
  · exact fun a f hf => K.bind (h .map _ ‹_› a f hf) (h .join _ ‹_›)
  · exact fun a f hf => a.of_bindByMethod hf

theorem join : Operation.Of K .join s.join :=
  given_or h fun m => h.bind m _ fun _ => K.pure _

theorem raise : Operation.Of K .raise s.raise := given_or h fun _ => K.throw rfl

theorem handle : Operation.Of K .handle s.handle := given_or h fun _ _ _ => K.throw rfl

theorem block : Operation.Of K .block s.block := given_or h fun _ _ => K.throw rfl

theorem scope : Operation.Of K .scope s.scope := by
  unfold Seed.scope
  split
  · exact h .scope _ ‹_›
  · exact h .block _ ‹_›
  · exact fun _ _ => K.throw rfl

theorem plus : Operation.Of K .plus s.plus := by
  unfold Seed.plus
  split
  · exact h .plus _ ‹_›
  · exact fun a b => h .alt _ ‹_› [a, b]
  · exact fun _ _ => K.throw rfl

theorem empty : Operation.Of K .empty s.empty := by
  unfold Seed.empty
  split
  · exact h .empty _ ‹_›
  · exact h .alt _ ‹_› []
  · exact K.throw rfl

theorem sum (acc : Value) (rest : List Value) : K.Of (s.sum acc rest) := by
  induction rest generalizing acc with
  | nil => exact K.pure acc
  | cons v rest ih => exact K.bind (K.keeping _ (h.plus acc v)) ih

theorem alt : Operation.Of K .alt s.alt :=
  given_or h fun items => by
    cases items with
    | nil => exact h.empty
    | cons v rest => exact h.sum v rest

theorem iterate : Operation.Of K .iterate s.iterate :=
  given_or h fun body v hbody => by
    refine K.holding _ (K.bounded fun n => ?_)
    induction n generalizing v with
    | zero => exact K.halt _
    | succ n ih => exact K.bind (hbody.call v) fun a => h.bind a _ ih

theorem reify : Operation.Of K .reify s.reify := given_or h fun _ hf => K.holding _ hf

theorem run : Operation.Of K .run s.run := given_or h h.reify

variable (hlift : ∀ v, K.Of (lift v))

include hlift

theorem map : Operation.Of K .map (s.map lift) :=
  given_or h fun a _ hf => h.bind a _ fun v => K.bind (hf v) hlift

theorem pair : Operation.Of K .pair (s.pair lift) := by
  unfold Seed.pair
  split
  · exact h .pair _ ‹_›
  · exact fun a b => h .arr _ ‹_› [a, b]
  · intro a b
    refine K.keeping _ (h.bind a _ fun x => ?_)
    exact h.map hlift b ⟨fun y => Pure.pure (.list [x, y]), _⟩ fun _ => K.pure _

theorem collect (items : List Value) : K.Of (s.collect lift items) := by
  fun_induction Seed.collect s lift items with
  | case1 => exact hlift _
  | case2 x => exact h.map hlift x _ fun _ => K.pure _
  | case3 a b => exact h.pair hlift a b
  | case4 head rest _ _ ih =>
    refine K.bind ih fun tail => K.bind (h.pair hlift head tail) fun both => ?_
    refine h.map hlift both _ fun v => K.bind (K.asList v) fun parts => ?_
    split
    · exact K.bind (K.asList _) fun _ => K.pure _
    · exact K.throw rfl

theorem arr : Operation.Of K .arr (s.arr lift) :=
  given_or h fun items => K.keeping items (h.collect hlift items)

theorem forPar : Operation.Of K .forPar (s.forPar lift) :=
  given_or h fun test body step v htest hbody hstep => by
    refine K.bounded fun n => ?_
    induction n generalizing v with
    | zero => exact K.halt _
    | succ n ih =>
      refine K.bind (K.holding _ (K.keeping _ (K.holding _ (htest v)))) fun holds => ?_
      cases holds with
      | false => exact K.holding _ (hlift v)
      | true =>
        refine K.bind (K.holding _ (K.keeping _ (hbody.call v))) fun result => ?_
        exact h.bind result _ fun w => K.keeping _ (K.bind (hstep.call v) ih)

theorem seq : Operation.Of K .seq (s.seq lift) :=
  given_or h fun g hg => by
    refine K.holding _ (K.bounded fun n => ?_)
    refine K.bind (K.holding _ hg.start) fun state => ?_
    generalize Value.unit = input
    induction n generalizing state input with
    | zero => exact K.halt _
    | succ n ih =>
      refine K.holding _ (K.bind (K.keeping _ (hg.resume state input)) fun r => ?_)
      cases r with
      | none => exact hlift input
      | some r => exact K.keeping _ (h.bind r.1 _ fun v => ih r.2 v)

theorem const : Operation.Of K .const (s.const lift) :=
  given_or h fun a _ => h.map hlift a _ fun _ => K.pure _

theorem unshiftTo : Operation.Of K .unshiftTo (s.unshiftTo lift) :=
  given_or h fun a items =>
    h.map hlift a _ fun _ => K.bind (K.asList items) fun _ => K.pure _

theorem opt : Operation.Of K .opt (s.opt lift) :=
  given_or h fun a => K.bind (K.keeping _ (hlift .unit)) fun b => h.plus a b

theorem cleanup : Operation.Of K .cleanup (s.cleanup lift) :=
  given_or h fun a f hf => by
    refine K.bind (K.holding _ (h.handle a _ fun e => ?_)) fun handled => ?_
    · exact K.bind (K.keeping _ hf) fun r => h.bind r _ fun w => K.keeping _ (h.raise e)
    · exact h.bind handled _ fun v => K.bind (K.keeping _ hf) fun r => h.const hlift r v

/-- What is derived is of the kind. -/
theorem table : (s.table lift).Of K
  | .pure => hlift
  | .raise => h.raise
  | .coerce => given_or h fun _ => K.pure _
  | .bind => h.bind
  | .map => h.map hlift
  | .join => h.join
  | .pair => h.pair hlift
  | .arr => h.arr hlift
  | .handle => h.handle
  | .cleanup => h.cleanup hlift
  | .const => h.const hlift
  | .unshiftTo => h.unshiftTo hlift
  | .alt => h.alt
  | .plus => h.plus
  | .empty => h.empty
  | .opt => h.opt hlift
  | .block => h.block
  | .scope => h.scope
  | .iterate => h.iterate
  | .forPar => h.forPar hlift
  | .seq => h.seq hlift
  | .run => h.run
  | .reify => h.reify
  | .reflect => given_or h fun _ => K.pure _
  | .pack => given_or h fun _ => K.pure _
  | .unpack => given_or h fun _ => K.pure _

omit hlift in
/-- The definition of a seed of the kind. -/
theorem definition? {id : DefId} {d : Definition} (hd : s.definition? id = some d) :
    d.table.Of K := by
  obtain ⟨lift, hlift, rfl⟩ := Option.map_eq_some_iff.mp hd
  exact h.table (h .pure lift hlift)

omit hlift in
theorem set (op : Operation) {f : Signature op} (hf : op.Of K f) : (s.set op f).Of K := by
  intro o g hg
  by_cases ho : o = op
  · subst ho
    rw [ops_set_self] at hg
    exact Option.some.inj hg ▸ hf
  · rw [ops_set_of_ne _ _ ho] at hg
    exact h o g hg

end Seed.Of

/-! ## Layers -/

/-- A block whose signals are sent, caught and turned into results by programs of the kind. -/
theorem Escape.of_blockWith {send finish : Value → Prog Value}
    {catching : Value → Callback → Prog Value} (hsend : ∀ v, K.Of (send v))
    (hcatching : ∀ a (f : Callback), f.Of K → K.Of (catching a f))
    (hfinish : ∀ v, K.Of (finish v)) {body : Body} (hbody : body.OfBody K) :
    K.Of (blockWith send catching finish body) := by
  refine K.holding _ (K.bind K.freshScope fun t => ?_)
  refine K.bind (K.holding _ (hbody _ fun v => hsend _)) fun result => ?_
  refine hcatching result _ fun v => ?_
  dsimp only
  split
  · exact K.keeping _ (hfinish _)
  · exact hsend v

namespace Packing

variable {w : Packing} (hw : ∀ k, w.coercion = some k → ∀ v, K.Of (k v))

theorem of_packed {p : Prog Value} (hp : K.Of p) : K.Of (w.packed p) :=
  K.bind hp fun _ => K.pure _

include hw

theorem of_unpack (v : Value) : K.Of (w.unpack v) := by
  unfold unpack
  split
  · exact K.pure _
  · exact hw _ ‹_› _
  · exact K.throw rfl
  · exact K.throw rfl

theorem of_unpacked {p : Prog Value} (hp : K.Of p) : K.Of (w.unpacked p) :=
  K.bind hp (of_unpack hw)

theorem of_unpacking {f : Callback} (hf : f.Of K) : (w.unpacking f).Of K :=
  fun v => of_unpacked hw (hf v)

theorem of_unpackAll (vs : List Value) : K.Of (w.unpackAll vs) := by
  induction vs with
  | nil => exact K.pure _
  | cons v vs ih =>
    refine K.bind (K.keeping _ (of_unpack hw v)) fun inner => ?_
    exact K.bind (K.keeping _ ih) fun _ => K.pure _

theorem of_unpackBoth (a b : Value) : K.Of (w.unpackBoth a b) := by
  refine K.bind (K.keeping _ (of_unpack hw a)) fun a => ?_
  exact K.bind (K.keeping _ (of_unpack hw b)) fun _ => K.pure _

theorem of_bindWith {α : Type 1} {bind : Value → Closure α → Prog Value} {f : Closure α}
    (hbind : ∀ a, K.Of (bind a f)) (a : Value) : K.Of (w.bindWith bind a f) :=
  K.bind (K.holding _ (of_unpack hw a)) fun a => of_packed (hbind a)

theorem of_blockBody {body : Body} (hbody : body.OfBody K) : (w.blockBody body).OfBody K :=
  fun k hk => of_unpacked hw (hbody (k.map _) fun v => of_packed (hk v))

end Packing

namespace Table.Of

variable {inner : Definition} (h : inner.table.Of K)

include h

theorem keeping (layer : String) : (Seed.keeping inner layer).Of K :=
  fun op _ hf => Seed.eq_of_keeping hf ▸ h op

theorem escape : (Escape.seed inner).Of K := by
  have hkeeping := h.keeping "escape"
  rw [Escape.seed]
  split
  · intro op f hf
    cases op with
    | bind | map | raise | iterate | forPar | cleanup => exact Option.some.inj hf ▸ h _
    | handle =>
      obtain rfl := Option.some.inj hf
      refine fun a f hf => h .handle a _ fun v => ?_
      change K.Of (if v.isSignal then inner.table .raise v else f.code v)
      split
      · exact h .raise v
      · exact hf v
    | block | scope =>
      obtain rfl := Option.some.inj hf
      exact fun body => Escape.of_blockWith (h .raise) (h .handle) (h .pure)
    | _ => exact hkeeping _ f hf
  · intro op f hf
    cases op with
    | bind =>
      obtain rfl := Option.some.inj hf
      refine fun a f hf => h .bind a _ fun v => ?_
      change K.Of (if v.isSignal then inner.table .pure v else f.code v)
      split
      · exact h .pure v
      · exact hf v
    | map =>
      obtain rfl := Option.some.inj hf
      refine fun a f hf => h .map a _ fun v => ?_
      change K.Of (if v.isSignal then pure v else f.code v)
      split
      · exact K.pure v
      · exact hf v
    | raise =>
      obtain rfl := Option.some.inj hf
      exact fun e => h .pure _
    | handle =>
      obtain rfl := Option.some.inj hf
      refine fun a f hf => h .bind a (f.map _) fun v => ?_
      simp only [Closure.code_map]
      split
      · exact K.keeping _ (hf _)
      · exact h .pure v
    | cleanup =>
      obtain rfl := Option.some.inj hf
      refine fun a f hf => h .bind a _ fun v => ?_
      exact K.bind (K.keeping _ hf) fun result => h .map result _ fun _ => K.pure _
    | block | scope =>
      obtain rfl := Option.some.inj hf
      exact fun body => Escape.of_blockWith (h .pure) (h .bind) (h .pure)
    | _ => exact hkeeping _ f hf

theorem carrier (brand : Brand) : ((inner.packing brand).seed inner).Of K := by
  have hw (k : Value → Prog Value) (hk : (inner.packing brand).coercion = some k) (v : Value) :
      K.Of (k v) := by
    unfold Definition.packing at hk
    dsimp only at hk
    split at hk
    · exact Option.some.inj hk ▸ h .coerce v
    · cases hk
  generalize inner.packing brand = w at hw
  intro op f hf
  cases op with
  | coerce =>
    obtain ⟨k, hk, rfl⟩ := Option.map_eq_some_iff.mp hf
    intro v
    unfold Packing.coerce
    split
    · exact K.pure _
    · exact K.bind (hw k hk v) fun _ => K.pure _
  | unpack => exact Option.some.inj hf ▸ Packing.of_unpack hw
  | pack => exact Option.some.inj hf ▸ fun _ => K.pure _
  | pure => exact Option.some.inj hf ▸ fun v => Packing.of_packed (h .pure v)
  | map =>
    exact Option.some.inj hf ▸ fun a f hf => Packing.of_bindWith hw (fun a => h .map a f hf) a
  | bind =>
    exact Option.some.inj hf ▸ fun a f hf =>
      Packing.of_bindWith hw (fun a => h .bind a _ (Packing.of_unpacking hw hf)) a
  | pair =>
    exact Option.some.inj hf ▸ fun a b =>
      K.bind (Packing.of_unpackBoth hw a b) fun _ => Packing.of_packed (h .pair _ _)
  | arr =>
    exact Option.some.inj hf ▸ fun items =>
      K.bind (Packing.of_unpackAll hw items) fun _ => Packing.of_packed (h .arr _)
  | raise => exact Option.some.inj hf ▸ fun e => Packing.of_packed (h .raise e)
  | handle =>
    exact Option.some.inj hf ▸ fun a f hf =>
      Packing.of_bindWith hw (fun a => h .handle a _ (Packing.of_unpacking hw hf)) a
  | cleanup =>
    exact Option.some.inj hf ▸ fun a f hf =>
      Packing.of_bindWith hw
        (fun a => h .cleanup a (f.map w.unpacked) (Packing.of_unpacked hw hf)) a
  | block =>
    exact Option.some.inj hf ▸ fun body hbody =>
      Packing.of_packed (h .block _ (Packing.of_blockBody hw hbody))
  | scope =>
    exact Option.some.inj hf ▸ fun body hbody =>
      Packing.of_packed (h .scope _ (Packing.of_blockBody hw hbody))
  | iterate =>
    exact Option.some.inj hf ▸ fun body v hbody =>
      Packing.of_packed (h .iterate _ v (Packing.of_unpacking hw hbody))
  | forPar =>
    exact Option.some.inj hf ▸ fun test body step v htest hbody hstep =>
      Packing.of_packed (h .forPar test _ step v htest (Packing.of_unpacking hw hbody) hstep)
  | plus =>
    exact Option.some.inj hf ▸ fun a b =>
      K.bind (Packing.of_unpackBoth hw a b) fun _ => Packing.of_packed (h .plus _ _)
  | empty => exact Option.some.inj hf ▸ Packing.of_packed (h .empty)
  | alt =>
    exact Option.some.inj hf ▸ fun items =>
      K.bind (Packing.of_unpackAll hw items) fun _ => Packing.of_packed (h .alt _)
  | run =>
    exact Option.some.inj hf ▸ fun f hf =>
      h .run (f.map w.unpacked) (Packing.of_unpacked hw hf)
  | reify => exact Option.some.inj hf ▸ fun f hf => Packing.of_unpacked hw (h .reify f hf)
  | reflect => exact Option.some.inj hf ▸ fun a => Packing.of_packed (h .reflect a)
  | _ => cases hf

theorem coercion : (Coercion.seed inner).Of K := by
  have hkeeping := h.keeping "coerce"
  have hcoerced {f : Callback} (hf : f.Of K) : (Coercion.coerced (inner.table .coerce) f).Of K :=
    fun v => K.bind (hf v) (h .coerce)
  intro op f hf
  cases op with
  | map => exact Option.some.inj hf ▸ h .map
  | bind => exact Option.some.inj hf ▸ fun a f hf => h .bind a _ (hcoerced hf)
  | handle => exact Option.some.inj hf ▸ fun a f hf => h .handle a _ (hcoerced hf)
  | cleanup =>
    exact Option.some.inj hf ▸ fun a f hf =>
      h .cleanup a (Coercion.coercedAction _ f) (K.bind hf (h .coerce))
  | iterate => exact Option.some.inj hf ▸ fun body v hbody => h .iterate _ v (hcoerced hbody)
  | forPar =>
    exact Option.some.inj hf ▸ fun test body step v htest hbody hstep =>
      h .forPar test _ step v htest (hcoerced hbody) hstep
  | block =>
    exact Option.some.inj hf ▸ fun body hbody =>
      h .block (Coercion.coercedBody _ body) fun k hk => K.bind (hbody k hk) (h .coerce)
  | scope =>
    exact Option.some.inj hf ▸ fun body hbody =>
      h .scope (Coercion.coercedBody _ body) fun k hk => K.bind (hbody k hk) (h .coerce)
  | run =>
    exact Option.some.inj hf ▸ fun f hf =>
      h .run (Coercion.coercedAction _ f) (K.bind hf (h .coerce))
  | seq => exact Option.some.inj hf ▸ fun g hg => h .seq _ (hg.mapYields (h .coerce))
  | _ => exact hkeeping _ f hf

/-- A context layer, if what it wraps stays of the kind. -/
theorem context {mode : ContextMode} {self : DefId}
    (haround : ∀ {α : Type} {p : Prog α}, K.Of p →
      K.Of ((Installer.mk (inner.name ++ "+context") self).around p)) :
    (inner.contextSeed mode self).Of K := by
  have hkeeping := h.keeping "context"
  generalize ha : Installer.mk (inner.name ++ "+context") self = a at haround
  have hcallback {f : Callback} (hf : f.Of K) : (a.callback f).Of K := fun v => haround (hf v)
  have hbody {f : Body} (hf : f.OfBody K) : (a.body f).OfBody K := fun k hk => haround (hf k hk)
  have hwrapped (op : Operation) (f : Signature op) (hf : a.wrapped inner op = some f) :
      op.Of K f := by
    cases op with
    | bind => exact Option.some.inj hf ▸ fun x f hf => h .bind x _ (hcallback hf)
    | handle => exact Option.some.inj hf ▸ fun x f hf => h .handle x _ (hcallback hf)
    | cleanup =>
      exact Option.some.inj hf ▸ fun x f hf => h .cleanup x (f.map a.around) (haround hf)
    | iterate => exact Option.some.inj hf ▸ fun body v hbody => h .iterate _ v (hcallback hbody)
    | forPar =>
      exact Option.some.inj hf ▸ fun test body step v htest hbody hstep =>
        h .forPar test _ step v htest (hcallback hbody) hstep
    | block => exact Option.some.inj hf ▸ fun body hb => h .block _ (hbody hb)
    | scope => exact Option.some.inj hf ▸ fun body hb => h .scope _ (hbody hb)
    | seq =>
      exact Option.some.inj hf ▸ fun g hg => h .seq (a.source g)
        ⟨haround hg.start, fun s v => haround (hg.step s v)⟩
    | _ => cases hf
  intro op f hf
  change Installer.ops _ inner mode op = some f at hf
  rw [ha] at hf
  unfold Installer.ops at hf
  split at hf
  · exact Option.some.inj hf ▸ fun f hf => h .run (f.map a.around) (haround hf)
  · split at hf
    · exact hwrapped _ f (‹a.wrapped inner _ = some _›.trans hf)
    · split at hf
      · exact Option.some.inj hf ▸ h _
      · exact hkeeping _ f hf

end Table.Of

/-! ## Operations on values alone -/

/-- An operation that a body of the kind stands in for. -/
theorem Operation.of_ofBody {program : List Value → Prog Value}
    (h : ∀ args, K.Of (program args)) (op : Operation) : op.Of K (op.ofBody program) := by
  have hbody (args : List Value) : K.Of (Prog.keeping args (program args)) :=
    K.keeping args (h args)
  cases op with
  | pure | raise | coerce | join | opt | reflect | pack | unpack => exact fun v => hbody [v]
  | pair | const | unshiftTo | plus => exact fun a b => hbody [a, b]
  | bind | map | handle => exact fun a f hf => K.bind (K.reify hf) fun f => hbody [a, f]
  | arr | alt => exact fun items => hbody [.list items]
  | empty => exact hbody []
  | cleanup =>
    exact fun a f hf => K.bind (K.reify (Closure.of_ignoring hf)) fun f => hbody [a, f]
  | block | scope => exact fun body hb => K.bind (Closure.of_reifyBody hb) fun f => hbody [f]
  | iterate => exact fun f v hf => K.bind (K.reify hf) fun f => hbody [f, v]
  | forPar =>
    exact fun test body step v ht hb hs => K.bind (Closure.of_reifyTest ht) fun test =>
      K.bind (K.reify hb) fun body => K.bind (K.reify hs) fun step => hbody [test, body, step, v]
  | seq => exact fun g hg => K.bind hg.reify fun g => hbody [g]
  | run | reify => exact fun f hf => K.bind (K.reify (Closure.of_ignoring hf)) fun f => hbody [f]

namespace Table.Of

variable {t : Table} (h : t.Of K)

include h

/-- Function values stand for callbacks of the kind. -/
theorem apply (op : Operation) (args : List Value) : K.Of (t.apply op args) := by
  have hbody (f : Value) : f.body.OfBody K := fun k hk => K.bind (K.reify hk) fun k => K.call f k
  unfold Table.apply
  split
  · exact h .pure _
  · exact h .raise _
  · exact h .coerce _
  · exact h .join _
  · exact h .opt _
  · exact h .reflect _
  · exact h .pack _
  · exact h .unpack _
  · exact h .pair _ _
  · exact h .const _ _
  · exact h .unshiftTo _ _
  · exact h .plus _ _
  · exact h .bind _ _ (Value.of_callback _)
  · exact h .map _ _ (Value.of_callback _)
  · exact h .handle _ _ (Value.of_callback _)
  · exact K.bind (K.asList _) (h .arr)
  · exact K.bind (K.asList _) (h .alt)
  · exact h .empty
  · exact h .cleanup _ _ (K.call _ _)
  · exact h .block _ (hbody _)
  · exact h .scope _ (hbody _)
  · exact h .iterate _ _ (Value.of_callback _)
  · exact h .forPar _ _ _ _ (fun v => K.bind (K.call _ v) K.asBool) (Value.of_callback _)
      (Value.of_callback _)
  · exact h .seq _ (Source.of_ofValue _)
  · exact h .run _ (K.call _ _)
  · exact h .reify _ (K.call _ _)
  · exact K.halt _

theorem answer (r : Request) (args : List Value) : K.Of (t.answer r args) := by
  unfold Table.answer
  split
  · exact h.apply _ _
  · exact h .run _ (h .seq _ (Source.of_ofValue _))
  · exact K.halt _

end Table.Of

/-! ## Ready-made effects -/

theorem Effects.of_identity (K : Prog.Kind) : identity.Of K := by
  intro op f hf
  cases op with
  | pure | coerce => exact Option.some.inj hf ▸ fun v => K.pure v
  | bind => exact Option.some.inj hf ▸ fun a f hf => Closure.Of.call hf a
  | run => exact Option.some.inj hf ▸ fun f hf => K.holding _ hf
  | _ => cases hf

end EffectLayers
