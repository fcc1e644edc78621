import EffectLayers.Proofs.Layer.Laws
import EffectLayers.Proofs.Layer.Stack
import EffectLayers.Proofs.Program.Implemented

/-!
# Operations that do not fail for want of a source

What is derived or layered on top is implemented if what it is made of is. Sequencing is made of
`pure` and `bind`. Exceptions are there if they were given. Escape control is made of either.

## Main definitions

* `Operation.Implemented`, `Seed.Implemented`: operations that never end for want of a source.
* `Operation.basic`, `Operation.exceptions`, `Operation.control`: what layers are made of.
* `Definition.Offers`: a definition whose operations are implemented.

## Main statements

* `Definition.Offers.carrier`, `Definition.Offers.coercion`, `Definition.Offers.context`: what
  layers keep.
* `Escape.offers_native`, `Escape.offers_threaded`: escape control of either kind.
* `Seed.Implemented.offers_basic`, `Seed.Implemented.offers_exceptions`: what seeds have.
-/

namespace EffectLayers

/-- The operation is implemented on callbacks that are. Only the operations that escape control and
the layers beneath it are made of are looked at. -/
def Operation.Implemented (A : Arena) : (op : Operation) → Signature op → Prop
  | .pure, g | .coerce, g | .raise, g => ∀ v, (g v).Implemented A
  | .const, g => ∀ a v, (g a v).Implemented A
  | .bind, g | .map, g | .handle, g => ∀ a f, f.Implemented A → (g a f).Implemented A
  | .cleanup, g => ∀ a f, f.code.Implemented A → (g a f).Implemented A
  | .block, g | .scope, g => ∀ body, Body.Implemented A body → (g body).Implemented A
  | _, _ => True

/-- Every operation that the seed gives is implemented. -/
def Seed.Implemented (A : Arena) (s : Seed) : Prop :=
  ∀ op g, s.ops op = some g → op.Implemented A g

namespace Operation

/-- What sequencing is made of. -/
def basic : List Operation := [pure, coerce, bind, map]

/-- What native escape control is made of. -/
def exceptions : List Operation := basic ++ [raise, handle, cleanup]

/-- What there is once escape control is there. -/
def control : List Operation := exceptions ++ [block, scope]

end Operation

/-! ## Definitions -/

namespace Definition

variable {A : Arena} {inner d : Definition} {id : DefId} {ops : List Operation}

/-- The operation of the definition is implemented. -/
def Provides (A : Arena) (d : Definition) (op : Operation) : Prop := op.Implemented A (d.table op)

/-- The operations are implemented. Exceptions among them were given and not derived. -/
structure Offers (A : Arena) (ops : List Operation) (d : Definition) : Prop where
  provides : ∀ op ∈ ops, d.Provides A op
  raise : .raise ∈ ops → d.supplies .raise = true
  handle : .handle ∈ ops → d.supplies .handle = true

theorem Offers.mono {ops' : List Operation} (h : d.Offers A ops) (hops : ops' ⊆ ops) :
    d.Offers A ops' :=
  ⟨fun op hop => h.provides op (hops hop), fun hop => h.raise (hops hop),
    fun hop => h.handle (hops hop)⟩

theorem provides_of_definition? {s : Seed} (hd : s.definition? id = some d) {op : Operation}
    {g : Signature op} (hop : s.ops op = some g) (hg : op.Implemented A g) : d.Provides A op := by
  rw [Provides, Seed.table_given hd op hop]
  exact hg

/-- Coercing is implemented if it is derived. -/
theorem provides_coerce {s : Seed} (hd : s.definition? id = some d)
    (h : ∀ g, s.ops .coerce = some g → ∀ v, (g v).Implemented A) : d.Provides A .coerce := by
  obtain ⟨lift, -, rfl⟩ := Option.map_eq_some_iff.mp hd
  intro v
  change ((s.ops .coerce).getD Pure.pure v).Implemented A
  cases hcoerce : s.ops .coerce with
  | none => exact .pure v
  | some g => exact h g hcoerce v

end Definition

/-! ## The carrier -/

namespace Packing

variable {A : Arena} {w : Packing}

theorem implemented_packed {p : Prog Value} (hp : p.Implemented A) : (w.packed p).Implemented A :=
  hp.bind fun _ => .pure _

/-- Values are unpacked, promoted or refused, but never for want of an operation. -/
def Unpacks (A : Arena) (w : Packing) : Prop :=
  ∀ promote, w.coercion = some promote → ∀ v, (promote v).Implemented A

theorem Unpacks.unpack (h : w.Unpacks A) (v : Value) : (w.unpack v).Implemented A := by
  unfold Packing.unpack
  split
  · exact .pure _
  · exact h _ ‹_› _
  · exact .throw rfl
  · exact .throw rfl

theorem Unpacks.coerce (h : w.Unpacks A) {promote : Value → Prog Value}
    (hpromote : w.coercion = some promote) (v : Value) : (w.coerce promote v).Implemented A := by
  unfold Packing.coerce
  split
  · exact .pure _
  · exact (h promote hpromote v).bind fun _ => .pure _

theorem Unpacks.unpacked (h : w.Unpacks A) {p : Prog Value} (hp : p.Implemented A) :
    (w.unpacked p).Implemented A :=
  hp.bind h.unpack

theorem Unpacks.bindWith (h : w.Unpacks A) {α : Type 1} (bind : Value → Closure α → Prog Value)
    {f : Closure α} (hbind : ∀ a, (bind a f).Implemented A) (a : Value) :
    (w.bindWith bind a f).Implemented A :=
  ((h.unpack a).holding f.holds).bind fun b => implemented_packed (hbind b)

theorem Unpacks.unpacking (h : w.Unpacks A) {f : Callback} (hf : f.Implemented A) :
    (w.unpacking f).Implemented A :=
  fun v => h.unpacked (hf v)

theorem Unpacks.blockBody (h : w.Unpacks A) {body : Body} (hbody : Body.Implemented A body) :
    Body.Implemented A (w.blockBody body) :=
  fun _ hescape => h.unpacked (hbody _ fun v => implemented_packed (hescape v))

end Packing

namespace Definition

variable {A : Arena} {inner d : Definition} {id : DefId} {ops : List Operation}

theorem unpacks_packing (h : inner.Provides A .coerce) (brand : Brand) :
    (inner.packing brand).Unpacks A := by
  intro promote hpromote
  unfold packing at hpromote
  split at hpromote
  · cases hpromote
    exact h
  · cases hpromote

theorem Offers.carrier {brand : Brand} (h : inner.Offers A ops) (hcoerce : .coerce ∈ ops)
    (hops : ops ⊆ Operation.control)
    (hd : ((inner.packing brand).seed inner).definition? id = some d) : d.Offers A ops := by
  have hw := unpacks_packing (h.provides .coerce hcoerce) brand
  refine ⟨fun op hop => ?_, fun _ => Seed.supplies_given hd .raise rfl,
    fun _ => Seed.supplies_given hd .handle rfl⟩
  have hinner := h.provides op hop
  cases op with
  | pure | raise =>
    exact provides_of_definition? hd rfl fun v => Packing.implemented_packed (hinner v)
  | coerce =>
    refine provides_coerce hd fun g hg v => ?_
    obtain ⟨promote, hpromote, rfl⟩ := Option.map_eq_some_iff.mp hg
    exact hw.coerce hpromote v
  | map =>
    exact provides_of_definition? hd rfl fun a f hf => hw.bindWith _ (fun b => hinner b f hf) a
  | bind | handle =>
    exact provides_of_definition? hd rfl fun a f hf =>
      hw.bindWith _ (fun b => hinner b _ (hw.unpacking hf)) a
  | cleanup =>
    exact provides_of_definition? hd rfl fun a f hf => hw.bindWith
      (fun a f => inner.table .cleanup a (f.map (inner.packing brand).unpacked))
      (fun b => hinner b _ (hw.unpacked hf)) a
  | block | scope =>
    exact provides_of_definition? hd rfl fun body hbody =>
      Packing.implemented_packed (hinner _ (hw.blockBody hbody))
  | _ => exact absurd (hops hop) (by decide)

/-! ## Coercion -/

theorem provides_coerce_of_keeping {s : Seed} (layer : String) (h : inner.Provides A .coerce)
    (hd : s.definition? id = some d) (hs : s.ops .coerce = (Seed.keeping inner layer).ops .coerce) :
    d.Provides A .coerce := by
  refine provides_coerce hd fun g hg v => ?_
  obtain rfl := Seed.eq_of_keeping (hs.symm.trans hg)
  exact h v

theorem Offers.coercion (h : inner.Offers A ops) (hcoerce : .coerce ∈ ops)
    (hops : ops ⊆ Operation.control) (hd : (Coercion.seed inner).definition? id = some d) :
    d.Offers A ops := by
  have hc : ∀ v, (inner.table .coerce v).Implemented A := h.provides .coerce hcoerce
  have hraise := kept_of_definition? "coerce" .raise hd rfl rfl
  refine ⟨fun op hop => ?_, fun hop => hraise.1.trans (h.raise hop),
    fun _ => Seed.supplies_given hd .handle rfl⟩
  have hinner := h.provides op hop
  cases op with
  | pure | map => exact provides_of_definition? hd rfl hinner
  | coerce => exact provides_coerce_of_keeping "coerce" hinner hd rfl
  | raise =>
    rw [Provides, hraise.2 (h.raise hop)]
    exact hinner
  | bind | handle =>
    exact provides_of_definition? hd rfl fun a f hf => hinner a _ fun v => (hf v).bind hc
  | cleanup => exact provides_of_definition? hd rfl fun a f hf => hinner a _ (hf.bind hc)
  | block | scope =>
    exact provides_of_definition? hd rfl fun body hbody =>
      hinner _ fun escape hescape => (hbody escape hescape).bind hc
  | _ => exact absurd (hops hop) (by decide)

/-! ## The context -/

theorem implemented_around (a : Installer) {p : Prog Value} (hp : p.Implemented A) :
    (a.around p).Implemented A := by
  refine (Prog.Implemented.alive a.target).bind fun alive => ?_
  cases alive with
  | true => exact hp.inside _
  | false => exact .throw rfl

theorem Offers.context {mode : ContextMode} (h : inner.Offers A ops)
    (hops : ops ⊆ Operation.control) (hd : (inner.contextSeed mode id).definition? id = some d) :
    d.Offers A ops := by
  have hkept : (inner.contextSeed mode id).ops .raise =
      (Seed.keeping inner "context").ops .raise := by
    cases mode <;> rfl
  have hraise := kept_of_definition? "context" .raise hd rfl hkept
  refine ⟨fun op hop => ?_, fun hop => hraise.1.trans (h.raise hop), fun _ => ?_⟩
  case refine_2 =>
    cases mode <;> exact Seed.supplies_given hd .handle rfl
  have hinner := h.provides op hop
  cases op with
  | pure | map => cases mode <;> exact provides_of_definition? hd rfl hinner
  | coerce => cases mode <;> exact provides_coerce_of_keeping "context" hinner hd rfl
  | raise =>
    rw [Provides, hraise.2 (h.raise hop)]
    exact hinner
  | bind | handle =>
    cases mode with
    | full =>
      exact provides_of_definition? hd rfl fun a f hf =>
        hinner a _ fun v => implemented_around _ (hf v)
    | _ => exact provides_of_definition? hd rfl hinner
  | cleanup =>
    cases mode with
    | full =>
      exact provides_of_definition? hd rfl fun a f hf => hinner a _ (implemented_around _ hf)
    | _ => exact provides_of_definition? hd rfl hinner
  | block | scope =>
    cases mode with
    | full =>
      exact provides_of_definition? hd rfl fun body hbody =>
        hinner _ fun escape hescape => implemented_around _ (hbody escape hescape)
    | _ => exact provides_of_definition? hd rfl hinner
  | _ => exact absurd (hops hop) (by decide)

end Definition

/-! ## Escape control -/

namespace Escape

variable {A : Arena} {inner d : Definition} {id : DefId}

theorem seed_eq_native (h : inner.supplies .handle = true) : seed inner = native inner := if_pos h

theorem seed_eq_threaded (h : inner.supplies .handle = false) : seed inner = threaded inner :=
  if_neg (Bool.eq_false_iff.mp h)

theorem implemented_blockWith {send finish : Value → Prog Value}
    {catching : Value → Callback → Prog Value} {body : Body}
    (hsend : ∀ v, (send v).Implemented A)
    (hcatching : ∀ a f, f.Implemented A → (catching a f).Implemented A)
    (hfinish : ∀ v, (finish v).Implemented A) (hbody : Body.Implemented A body) :
    (blockWith send catching finish body).Implemented A := by
  refine .holding _ (Prog.Implemented.freshScope.bind fun n => ?_)
  refine .bind ((hbody _ fun v => hsend _).holding _) fun result => hcatching _ _ fun v => ?_
  dsimp only
  split
  · exact (hfinish _).keeping _
  · exact hsend v

/-- Native escape control is made of the exceptions beneath it. -/
theorem offers_native (h : inner.Offers A Operation.exceptions)
    (hd : (native inner).definition? id = some d) : d.Offers A Operation.control := by
  have hraise : ∀ v, (inner.table .raise v).Implemented A := h.provides .raise (by decide)
  have hhandle : ∀ a (f : Callback), f.Implemented A → (inner.table .handle a f).Implemented A :=
    h.provides .handle (by decide)
  have hblock (body : Body) (hbody : Body.Implemented A body) :
      (nativeBlock inner body).Implemented A :=
    implemented_blockWith hraise hhandle (h.provides .pure (by decide)) hbody
  refine ⟨fun op hop => ?_, fun _ => Seed.supplies_given hd .raise rfl,
    fun _ => Seed.supplies_given hd .handle rfl⟩
  cases op with
  | pure | bind | map | raise | cleanup =>
    exact Definition.provides_of_definition? hd rfl (h.provides _ (by decide))
  | coerce =>
    exact Definition.provides_coerce_of_keeping "escape" (h.provides .coerce (by decide)) hd rfl
  | handle =>
    refine Definition.provides_of_definition? hd rfl fun a f hf => hhandle a _ fun v => ?_
    dsimp only [Closure.code_map]
    split
    · exact hraise v
    · exact hf v
  | block | scope => exact Definition.provides_of_definition? hd rfl hblock
  | _ => exact absurd hop (by decide)

theorem implemented_afterCleanup (hmap : inner.Provides A .map) {f : Action}
    (hf : f.code.Implemented A) : (afterCleanup inner f).Implemented A :=
  fun _ => (hf.keeping _).bind fun result => hmap result _ fun _ => .pure _

/-- Threaded escape control is made of sequencing alone. -/
theorem offers_threaded (h : inner.Offers A Operation.basic)
    (hd : (threaded inner).definition? id = some d) : d.Offers A Operation.control := by
  have hpure : ∀ v, (inner.table .pure v).Implemented A := h.provides .pure (by decide)
  have hbind : ∀ a (f : Callback), f.Implemented A → (inner.table .bind a f).Implemented A :=
    h.provides .bind (by decide)
  have hmap : ∀ a (f : Callback), f.Implemented A → (inner.table .map a f).Implemented A :=
    h.provides .map (by decide)
  have hblock (body : Body) (hbody : Body.Implemented A body) :
      (threadedBlock inner body).Implemented A :=
    implemented_blockWith hpure hbind hpure hbody
  refine ⟨fun op hop => ?_, fun _ => Seed.supplies_given hd .raise rfl,
    fun _ => Seed.supplies_given hd .handle rfl⟩
  cases op with
  | pure => exact Definition.provides_of_definition? hd rfl hpure
  | coerce =>
    exact Definition.provides_coerce_of_keeping "escape" (h.provides .coerce (by decide)) hd rfl
  | raise => exact Definition.provides_of_definition? hd rfl fun e => hpure _
  | map =>
    refine Definition.provides_of_definition? hd rfl fun a f hf => hmap a _ fun v => ?_
    dsimp only [Closure.code_map]
    split
    · exact .pure v
    · exact hf v
  | bind =>
    refine Definition.provides_of_definition? hd rfl fun a f hf => hbind a _ fun v => ?_
    dsimp only [Closure.code_map]
    split
    · exact hpure v
    · exact hf v
  | handle =>
    refine Definition.provides_of_definition? hd rfl fun a f hf => hbind a _ fun v => ?_
    dsimp only [Closure.code_map]
    split
    · exact (hf _).keeping _
    · exact hpure v
  | cleanup =>
    exact Definition.provides_of_definition? hd rfl fun a f hf =>
      hbind a _ (implemented_afterCleanup hmap hf)
  | block | scope => exact Definition.provides_of_definition? hd rfl hblock
  | _ => exact absurd hop (by decide)

end Escape

/-! ## Seeds -/

namespace Seed

variable {A : Arena} {s : Seed} {d : Definition} {id : DefId}

theorem Implemented.given (hs : s.Implemented A) (hd : s.definition? id = some d) {op : Operation}
    {g : Signature op} (h : s.ops op = some g) : d.Provides A op :=
  Definition.provides_of_definition? hd h (hs op g h)

theorem Implemented.provides (hs : s.Implemented A) (hd : s.definition? id = some d)
    {op : Operation} (h : s.supplies op = true) : d.Provides A op := by
  obtain ⟨g, hg⟩ := Option.isSome_iff_exists.mp h
  exact hs.given hd hg

/-- A definition with `bind` has what sequencing is made of. -/
theorem Implemented.offers_basic (hs : s.Implemented A) (hbind : s.supplies .bind = true)
    (hd : s.definition? id = some d) : d.Offers A Operation.basic := by
  have hpure : d.Provides A .pure := by
    obtain ⟨lift, hlift, -⟩ := Option.map_eq_some_iff.mp hd
    exact hs.given hd hlift
  refine ⟨fun op hop => ?_, fun h => absurd h (by decide), fun h => absurd h (by decide)⟩
  cases op with
  | pure => exact hpure
  | coerce => exact Definition.provides_coerce hd fun g hg => hs .coerce g hg
  | bind => exact hs.provides hd hbind
  | map =>
    cases hmap : s.ops .map with
    | some g => exact hs.given hd hmap
    | none =>
      intro a f hf
      rw [map_of_definition? hd hmap]
      exact hs.provides hd hbind a _ fun v => (hf v).bind hpure
  | _ => exact absurd hop (by decide)

theorem provides_const (hs : s.Implemented A) (hd : s.definition? id = some d)
    (hmap : d.Provides A .map) : d.Provides A .const := by
  cases hconst : s.ops .const with
  | some g => exact hs.given hd hconst
  | none =>
    obtain ⟨lift, -, rfl⟩ := Option.map_eq_some_iff.mp hd
    intro a v
    change (s.const lift a v).Implemented A
    simp only [Seed.const, hconst, Option.getD_none]
    exact hmap a _ fun _ => .pure v

/-- A definition with `bind`, `raise` and `handle` has what native escape control is made of. -/
theorem Implemented.offers_exceptions (hs : s.Implemented A) (hbind : s.supplies .bind = true)
    (hraise : s.supplies .raise = true) (hhandle : s.supplies .handle = true)
    (hd : s.definition? id = some d) : d.Offers A Operation.exceptions := by
  have hbasic := hs.offers_basic hbind hd
  have hconst := provides_const hs hd (hbasic.provides .map (by decide))
  refine ⟨fun op hop => ?_, fun _ => (supplies_of_definition? hd _).trans hraise,
    fun _ => (supplies_of_definition? hd _).trans hhandle⟩
  cases op with
  | raise => exact hs.provides hd hraise
  | handle => exact hs.provides hd hhandle
  | cleanup =>
    cases hcleanup : s.ops .cleanup with
    | some g => exact hs.given hd hcleanup
    | none =>
      intro a f hf
      have hnext : ∀ a (f : Callback), f.Implemented A → (d.table .bind a f).Implemented A :=
        hbasic.provides .bind (by decide)
      rw [cleanup_of_definition? hd hcleanup]
      refine .bind (.holding _ (hs.provides hd hhandle a _ fun e => ?_)) fun handled => ?_
      · refine (hf.keeping _).bind fun v => hnext v _ fun w => ?_
        exact .keeping _ (hs.provides hd hraise e)
      · exact hnext handled _ fun v => (hf.keeping _).bind fun _ => hconst _ v
  | pure | coerce | bind | map => exact hbasic.provides _ (by decide)
  | _ => exact absurd hop (by decide)

end Seed

end EffectLayers
