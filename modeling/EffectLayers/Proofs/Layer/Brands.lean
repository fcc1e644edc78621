import EffectLayers.Effects
import EffectLayers.Proofs.Assembly
import EffectLayers.Proofs.Program.Equations

/-!
# Brands do not mix

A carrier layer on a definition without a `coerce` is a border. What comes in as an effect value,
or is answered by a callback as one, is opened there: a carrier of the brand is taken for its inner
value, and anything else faults before the definition beneath sees it. What goes out is in a carrier
of the brand.

## Main definitions

* `Brand.opened`: the inner value of a carrier of the brand, or why there is none.
* `Brand.Opens`, `Brand.Guards`: programs and closures whose answers are opened.
* `Operation.Guarded`: an operation that opens whatever it hands on.
* `Operation.Carries`: an operation that answers nothing but carriers of the brand.

## Main statements

* `Definition.brands_kept`: the operations of a carrier layer.
-/

namespace EffectLayers

universe u

/-- The inner value of a carrier of the brand. A carrier of another brand is foreign, and any other
value is in no carrier. -/
def Brand.opened (brand : Brand) : Value → Except Fault Value
  | .carrier found inner =>
    if found.same brand then .ok inner else .error (.foreignCarrier brand found)
  | found => .error (.expected .carried found)

/-- The first program runs exactly as the second one. -/
def Prog.RunsAs {α : Type} (p q : Prog α) : Prop := ∀ c b w, p.run c b w = q.run c b w

/-- Every result of the program is in a carrier of the brand. -/
def Prog.Carries (brand : Brand) (p : Prog Value) : Prop :=
  ∀ c b w v w', p.run c b w = .finished (.ok v) w' → ∃ inner, v = .carrier brand inner

namespace Brand

variable (brand : Brand)

/-- The inner value of a carrier, at once. -/
def opening (v : Value) : Prog Value := .done (brand.opened v)

/-- Opening a list is over at once: the first value that does not open is the fault. -/
theorem mapM_opening (items : List Value) :
    items.mapM brand.opening = .done (items.mapM brand.opened) := by
  induction items with
  | nil => rfl
  | cons v vs ih =>
    rw [List.mapM_cons, List.mapM_cons, ih, Brand.opening]
    cases brand.opened v with
    | error e => rfl
    | ok x => cases vs.mapM brand.opened <;> rfl

/-- A program with its result in a carrier. -/
def sealing (p : Prog Value) : Prog Value := do return .carrier brand (← p)

/-- The program `q` does what `p` does and opens its result, in the world that `p` leaves. -/
def Opens (p q : Prog Value) : Prop := q.RunsAs do brand.opening (← p)

/-- The closure `g` does what `f` does and opens its results. -/
structure Guards {A : Type u} (f g : Closure (A → Prog Value)) : Prop where
  holds : g.holds = f.holds
  code : ∀ x, brand.Opens (f.code x) (g.code x)

/-- The action `g` does what `f` does and opens its result. -/
structure GuardsRun (f g : Action) : Prop where
  holds : g.holds = f.holds
  code : brand.Opens f.code g.code

/-- The body `g` does what `f` does and opens its result. The escape that is handed to `f` sends as
the one handed to `g` does, and answers in carriers. -/
structure GuardsBody (f g : Body) : Prop where
  holds : g.holds = f.holds
  code : ∀ escape : Callback, ∃ escape' : Callback, escape'.holds = escape.holds ∧
    (∀ v, (escape'.code v).RunsAs (brand.sealing (escape.code v))) ∧
    brand.Opens (f.code escape') (g.code escape)

/-- A walk over a source that opens each yield before it binds it with `bind`, and opens what the
walk from there on answers before it is handed to `bind`. -/
structure Walks (bind : Value → Callback → Prog Value) (lift : Value → Prog Value)
    (source : Source) (walk : Nat → source.State → Value → Prog Value) : Prop where
  zero : ∀ state input, walk 0 state input = .halt .exhausted
  succ : ∀ n state input, ∃ rest : source.State → Callback,
    (∀ next, brand.Guards ⟨walk n next, source.holds next⟩ (rest next)) ∧
    (walk (n + 1) state input).RunsAs (Prog.holding (source.holds state) do
      match ← Prog.keeping [input] (source.resume state input) with
      | none => brand.sealing (lift input)
      | some (produced, next) =>
        Prog.keeping [input] do brand.sealing (bind (← brand.opening produced) (rest next)))

end Brand

namespace Operation

/-- The operation hands its effect arguments on to those of `given` opened, and its callbacks
guarded, and answers in carriers. Arguments that do not open end it, with `given` unused. -/
def Guarded (brand : Brand) (given : Table) : (op : Operation) → Signature op → Prop
  | .pure, outer => ∀ v, (outer v).RunsAs (brand.sealing (given .pure v))
  | .raise, outer => ∀ v, (outer v).RunsAs (brand.sealing (given .raise v))
  | .reflect, outer => ∀ v, (outer v).RunsAs (brand.sealing (given .reflect v))
  | .pack, outer => ∀ v, (outer v).RunsAs (brand.sealing (Pure.pure v))
  | .bind, outer => ∀ a f, ∃ g, brand.Guards f g ∧
    (outer a f).RunsAs do brand.sealing (given .bind (← brand.opening a) g)
  | .handle, outer => ∀ a f, ∃ g, brand.Guards f g ∧
    (outer a f).RunsAs do brand.sealing (given .handle (← brand.opening a) g)
  | .cleanup, outer => ∀ a f, ∃ g, brand.GuardsRun f g ∧
    (outer a f).RunsAs do brand.sealing (given .cleanup (← brand.opening a) g)
  | .map, outer => ∀ a f,
    (outer a f).RunsAs do brand.sealing (given .map (← brand.opening a) f)
  | .const, outer => ∀ a v, ∃ f : Callback, (∀ x, f.code x = Pure.pure v) ∧
    (outer a v).RunsAs do brand.sealing (given .map (← brand.opening a) f)
  | .unshiftTo, outer => ∀ a items, ∃ f : Callback,
    (∀ x, f.code x = do return .list (x :: (← items.asList))) ∧
    (outer a items).RunsAs do brand.sealing (given .map (← brand.opening a) f)
  | .join, outer => ∀ a, ∃ g, brand.Guards { code := Pure.pure } g ∧
    (outer a).RunsAs do brand.sealing (given .bind (← brand.opening a) g)
  | .pair, outer => ∀ a b, (outer a b).RunsAs do
    brand.sealing (given .pair (← brand.opening a) (← brand.opening b))
  | .plus, outer => ∀ a b, (outer a b).RunsAs do
    brand.sealing (given .plus (← brand.opening a) (← brand.opening b))
  | .arr, outer => ∀ items, (outer items).RunsAs do
    brand.sealing (given .arr (← items.mapM brand.opening))
  | .alt, outer => ∀ items, (outer items).RunsAs do
    brand.sealing (given .alt (← items.mapM brand.opening))
  | .empty, outer => outer.RunsAs (brand.sealing (given .empty))
  | .opt, outer => ∀ a, (outer a).RunsAs do
    let none ← Prog.keeping [a] (given .pure .unit)
    brand.sealing (given .plus (← brand.opening a) none)
  | .block, outer => ∀ f, ∃ g, brand.GuardsBody f g ∧
    (outer f).RunsAs (brand.sealing (given .block g))
  | .scope, outer => ∀ f, ∃ g, brand.GuardsBody f g ∧
    (outer f).RunsAs (brand.sealing (given .scope g))
  | .iterate, outer => ∀ f v, ∃ g, brand.Guards f g ∧
    (outer f v).RunsAs (brand.sealing (given .iterate g v))
  | .forPar, outer => ∀ test f step v, ∃ g, brand.Guards f g ∧
    (outer test f step v).RunsAs (brand.sealing (given .forPar test g step v))
  | .seq, outer => ∀ source, ∃ walk, brand.Walks (given .bind) (given .pure) source walk ∧
    (outer source).RunsAs (Prog.holding source.start.holds (.bounded fun n => do
      walk n (← source.start.run) .unit))
  | .run, outer => ∀ f, ∃ g, brand.GuardsRun f g ∧ (outer f).RunsAs (given .run g)
  | .reify, outer => ∀ f, (outer f).RunsAs do brand.opening (← given .reify f)
  | .unpack, outer => ∀ v, (outer v).RunsAs (brand.opening v)
  | .coerce, outer => ∀ v, (outer v).RunsAs (Pure.pure v)

/-- Every result of the operation is in a carrier of the brand, whatever it is used on. -/
def Carries (brand : Brand) : (op : Operation) → Signature op → Prop
  | .pure, f | .raise, f | .coerce, f | .join, f | .opt, f | .reflect, f | .pack, f | .unpack, f =>
    ∀ v, (f v).Carries brand
  | .pair, f | .const, f | .unshiftTo, f | .plus, f => ∀ a b, (f a b).Carries brand
  | .bind, f | .map, f | .handle, f => ∀ a k, (f a k).Carries brand
  | .arr, f | .alt, f => ∀ items, (f items).Carries brand
  | .empty, f => f.Carries brand
  | .cleanup, f => ∀ a k, (f a k).Carries brand
  | .block, f | .scope, f => ∀ body, (f body).Carries brand
  | .iterate, f => ∀ body v, (f body v).Carries brand
  | .forPar, f => ∀ test body step v, (f test body step v).Carries brand
  | .seq, f => ∀ source, (f source).Carries brand
  | .run, f | .reify, f => ∀ k, (f k).Carries brand

/-- The operations whose results are effect values. -/
def constructive : List Operation :=
  [pure, raise, bind, map, join, pair, arr, handle, cleanup, const, unshiftTo, alt, plus, empty,
    opt, block, scope, iterate, forPar, seq, reflect, pack]

end Operation

/-! ## Running alike -/

namespace Prog

variable {α β : Type} {p q r : Prog α} {brand : Brand}

namespace RunsAs

theorem refl (p : Prog α) : p.RunsAs p := fun _ _ _ => rfl

theorem trans (h : p.RunsAs q) (h' : q.RunsAs r) : p.RunsAs r :=
  fun c b w => (h c b w).trans (h' c b w)

theorem bind {f g : α → Prog β} (h : p.RunsAs q) (hf : ∀ a, (f a).RunsAs (g a)) :
    (p >>= f).RunsAs (q >>= g) := by
  intro c b w
  rw [run_bind, run_bind, h c b w]
  rcases q.run c b w with _ | ⟨e | a, w'⟩
  · rfl
  · rfl
  · exact hf a c b w'

theorem inside (s : Scope) (h : p.RunsAs q) : (Prog.inside s p).RunsAs (Prog.inside s q) := by
  intro c b w
  rw [run_inside, run_inside, h c b]

/-- Nothing is noticed of a scope around a result. -/
theorem inside_done (s : Scope) (r : Except Fault α) :
    (Prog.inside s (.done r)).RunsAs (.done r) := by
  intro c b w
  rw [run_inside]
  cases s <;> rfl

/-- A result is computed from in a scope or after it. -/
theorem inside_map (s : Scope) (p : Prog α) (f : α → β) :
    (Prog.inside s (do return f (← p))).RunsAs (do return f (← Prog.inside s p)) := by
  intro c b w
  rw [run_inside, run_bind, run_bind, run_inside]
  rcases p.run c b (w.entering s) with _ | ⟨_ | a, w'⟩ <;> rfl

end RunsAs

/-! ## Answers in carriers -/

namespace Carries

theorem of_runsAs {p q : Prog Value} (h : q.Carries brand) (hp : p.RunsAs q) : p.Carries brand :=
  fun c b w v w' hrun => h c b w v w' ((hp c b w).symm.trans hrun)

theorem bind {p : Prog α} {f : α → Prog Value} (hf : ∀ a, (f a).Carries brand) :
    (p >>= f).Carries brand := by
  intro c b w v w' hrun
  rw [run_bind] at hrun
  rcases hp : p.run c b w with _ | ⟨_ | a, w₁⟩
  all_goals rw [hp] at hrun
  · cases hrun
  · cases hrun
  · exact hf a c b w₁ v w' hrun

theorem sealing (p : Prog Value) : (brand.sealing p).Carries brand := by
  refine bind fun a c b w v w' hrun => ?_
  cases hrun
  exact ⟨a, rfl⟩

theorem inside {p : Prog Value} (hp : p.Carries brand) (s : Scope) :
    (Prog.inside s p).Carries brand := by
  intro c b w v w' hrun
  rw [run_inside] at hrun
  obtain ⟨r, w₁, hp₁, hrun⟩ := Outcome.onward_eq_finished hrun
  cases hrun
  exact hp c b _ v w₁ hp₁

theorem bounded {f : Nat → Prog Value} (hf : ∀ n, (f n).Carries brand) :
    (Prog.bounded f).Carries brand :=
  fun c b => hf b c b

end Carries

end Prog

theorem Brand.Walks.carries {brand : Brand} {bind : Value → Callback → Prog Value}
    {lift : Value → Prog Value} {source : Source}
    {walk : Nat → source.State → Value → Prog Value} (h : brand.Walks bind lift source walk)
    (n : Nat) (state : source.State) (input : Value) :
    (walk n state input).Carries brand := by
  cases n with
  | zero =>
    rw [h.zero]
    exact fun c b w v w' hrun => nomatch hrun
  | succ n =>
    obtain ⟨rest, -, hruns⟩ := h.succ n state input
    refine .of_runsAs (Prog.Carries.inside (.bind fun r => ?_) _) hruns
    cases r with
    | none => exact .sealing _
    | some r => exact .inside (.bind fun x => .sealing _) _

/-- What opens its arguments and answers in carriers answers nothing else. -/
theorem Operation.Guarded.carries {brand : Brand} {given : Table} {op : Operation}
    {outer : Signature op} (h : op.Guarded brand given outer) (hop : op ∈ constructive) :
    op.Carries brand outer := by
  cases op with
  | pure | raise | reflect | pack => exact fun v => .of_runsAs (.sealing _) (h v)
  | bind | handle | cleanup =>
    intro a f
    obtain ⟨g, -, hruns⟩ := h a f
    exact .of_runsAs (.bind fun x => .sealing _) hruns
  | const | unshiftTo =>
    intro a v
    obtain ⟨f, -, hruns⟩ := h a v
    exact .of_runsAs (.bind fun x => .sealing _) hruns
  | join =>
    intro a
    obtain ⟨g, -, hruns⟩ := h a
    exact .of_runsAs (.bind fun x => .sealing _) hruns
  | map => exact fun a f => .of_runsAs (.bind fun x => .sealing _) (h a f)
  | pair | plus => exact fun a b => .of_runsAs (.bind fun x => .bind fun y => .sealing _) (h a b)
  | arr | alt => exact fun items => .of_runsAs (.bind fun xs => .sealing _) (h items)
  | empty => exact .of_runsAs (.sealing _) h
  | opt => exact fun a => .of_runsAs (.bind fun u => .bind fun x => .sealing _) (h a)
  | block | scope =>
    intro f
    obtain ⟨g, -, hruns⟩ := h f
    exact .of_runsAs (.sealing _) hruns
  | iterate =>
    intro f v
    obtain ⟨g, -, hruns⟩ := h f v
    exact .of_runsAs (.sealing _) hruns
  | forPar =>
    intro test f step v
    obtain ⟨g, -, hruns⟩ := h test f step v
    exact .of_runsAs (.sealing _) hruns
  | seq =>
    intro source
    obtain ⟨walk, hwalk, hruns⟩ := h source
    refine .of_runsAs (Prog.Carries.inside (.bounded fun n => .bind fun state => ?_) _) hruns
    exact hwalk.carries n state .unit
  | run | reify | coerce | unpack => exact absurd hop (by decide)

/-! ## The layer -/

namespace Packing

variable {w : Packing} (hw : w.coercion = none)

include hw

theorem unpack_eq_opening (v : Value) : w.unpack v = w.brand.opening v := by
  cases v with
  | carrier found inner =>
    cases h : found.same w.brand <;>
      simp [unpack, Brand.opening, Brand.opened, inner?, hw, h] <;> rfl
  | _ =>
    simp only [unpack, Brand.opening, Brand.opened, inner?, hw]
    rfl

theorem opens_unpacked (p : Prog Value) : w.brand.Opens p (w.unpacked p) := by
  rw [unpacked, funext (unpack_eq_opening hw)]
  exact .refl _

theorem guards_unpacking (f : Callback) : w.brand.Guards f (w.unpacking f) :=
  ⟨rfl, fun v => opens_unpacked hw (f.code v)⟩

theorem guardsRun_unpacked (f : Action) : w.brand.GuardsRun f (f.map w.unpacked) :=
  ⟨rfl, opens_unpacked hw f.code⟩

theorem guardsBody_blockBody (f : Body) : w.brand.GuardsBody f (w.blockBody f) :=
  ⟨rfl, fun escape => ⟨escape.map fun send v => w.packed (send v), rfl, fun _ => .refl _,
    opens_unpacked hw _⟩⟩

theorem holding_unpack_runsAs (h : Holding) (v : Value) :
    (Prog.holding h (w.unpack v)).RunsAs (w.brand.opening v) := by
  rw [unpack_eq_opening hw]
  exact .inside_done _ _

theorem bindWith_runsAs {α : Type 1} (op : Value → Closure α → Prog Value) (a : Value)
    (f : Closure α) : (w.bindWith op a f).RunsAs
      (do w.brand.sealing (op (← w.brand.opening a) f)) :=
  (holding_unpack_runsAs hw f.holds a).bind fun _ => .refl _

theorem unpackBoth_runsAs (op : Value → Value → Prog Value) (a b : Value) :
    (do let (a, b) ← w.unpackBoth a b; w.packed (op a b)).RunsAs
      (do w.brand.sealing (op (← w.brand.opening a) (← w.brand.opening b))) := by
  simp only [unpackBoth, bind_assoc, pure_bind]
  refine (holding_unpack_runsAs hw _ a).bind fun x => ?_
  exact (holding_unpack_runsAs hw _ b).bind fun y => .refl _

theorem unpackAll_runsAs (items : List Value) :
    (w.unpackAll items).RunsAs (items.mapM w.brand.opening) := by
  induction items with
  | nil => exact .refl _
  | cons v vs ih =>
    rw [List.mapM_cons]
    refine (holding_unpack_runsAs hw _ v).bind fun x => .bind ?_ fun _ => .refl _
    -- Opening is over at once, so nothing is noticed of what is held meanwhile.
    refine (ih.inside _).trans ?_
    rw [w.brand.mapM_opening]
    exact .inside_done _ _

theorem opt_runsAs (plus : Value → Value → Prog Value) (none : Prog Value) (a : Value) :
    (do
        let (a, b) ← w.unpackBoth a (← Prog.keeping [a] (w.packed none))
        w.packed (plus a b)).RunsAs
      (do
        let none ← Prog.keeping [a] none
        w.brand.sealing (plus (← w.brand.opening a) none)) := by
  refine .trans (.bind (.inside_map _ none w.pack) fun b => unpackBoth_runsAs hw plus a b) ?_
  simp only [bind_assoc, pure_bind]
  refine .bind (.refl _) fun b => .bind (.refl _) fun a => ?_
  rw [← unpack_eq_opening hw (w.pack b), unpack_pack, pure_bind]
  exact .refl _

/-- A walk over a source by the derived `seq` opens each yield, and what the walk from there on
answers. -/
theorem walks_seqFrom {inner : Definition} (source : Source) :
    w.brand.Walks (inner.table .bind) (inner.table .pure) source
      (Seed.seqFrom (w.bindWith fun a f => inner.table .bind a (w.unpacking f))
        (fun v => w.packed (inner.table .pure v)) source) where
  zero _ _ := rfl
  succ n state input := by
    refine ⟨_, fun next => guards_unpacking hw _, .inside _ (.bind (.refl _) fun r => ?_)⟩
    cases r with
    | none => exact .refl _
    | some r => exact .inside _ (bindWith_runsAs hw _ r.1 _)

end Packing

namespace Definition

open Packing

variable {inner d : Definition} {brand : Brand} {id : DefId}

theorem guarded_of_definition? (hcoerce : inner.supplies .coerce = false)
    (hd : ((inner.packing brand).seed inner).definition? id = some d) (op : Operation) :
    op.Guarded brand inner.table (d.table op) := by
  let w := inner.packing brand
  have hw : w.coercion = none := by simp [w, packing, hcoerce]
  obtain rfl := Option.some.inj hd
  cases op with
  | pure | raise | reflect | pack => exact fun v => .refl _
  | coerce =>
    intro v
    change ((w.coercion.map w.coerce).getD Pure.pure v).RunsAs _
    rw [hw]
    exact .refl _
  | unpack => exact fun v => unpack_eq_opening hw v ▸ .refl _
  | bind =>
    exact fun a f => ⟨_, guards_unpacking hw f,
      bindWith_runsAs hw (fun a f => inner.table .bind a (w.unpacking f)) a f⟩
  | handle =>
    exact fun a f => ⟨_, guards_unpacking hw f,
      bindWith_runsAs hw (fun a f => inner.table .handle a (w.unpacking f)) a f⟩
  | cleanup =>
    exact fun a f => ⟨_, guardsRun_unpacked hw f,
      bindWith_runsAs hw (fun a f => inner.table .cleanup a (f.map w.unpacked)) a f⟩
  | map => exact fun a f => bindWith_runsAs hw _ a f
  | const => exact fun a v => ⟨_, fun _ => rfl, bindWith_runsAs hw _ a _⟩
  | unshiftTo => exact fun a items => ⟨_, fun _ => rfl, bindWith_runsAs hw _ a _⟩
  | join =>
    exact fun a => ⟨_, guards_unpacking hw _,
      bindWith_runsAs hw (fun a f => inner.table .bind a (w.unpacking f)) a _⟩
  | pair | plus => exact unpackBoth_runsAs hw _
  | arr | alt => exact fun items => (unpackAll_runsAs hw items).bind fun _ => .refl _
  | empty => exact .refl _
  | opt => exact fun a => opt_runsAs hw _ _ a
  | block | scope => exact fun f => ⟨_, guardsBody_blockBody hw f, .refl _⟩
  | iterate => exact fun f v => ⟨_, guards_unpacking hw f, .refl _⟩
  | forPar => exact fun test f step v => ⟨_, guards_unpacking hw f, .refl _⟩
  | seq => exact fun source => ⟨_, walks_seqFrom hw source, .refl _⟩
  | run => exact fun f => ⟨_, guardsRun_unpacked hw f, .refl _⟩
  | reify => exact fun f => opens_unpacked hw _

/-- On top of every definition that was given no `coerce` there is a carrier layer of any brand. Its
operations answer in carriers of the brand, and open every effect value that they hand on. -/
theorem brands_kept (inner : Definition) (hcoerce : inner.supplies .coerce = false) (brand : Brand)
    (c : Catalog) : ∃ d c', inner.withCarrier brand c = (.ok d, c') ∧
      (∀ op ∈ Operation.constructive, op.Carries brand (d.table op)) ∧
      ∀ op : Operation, op.Guarded brand inner.table (d.table op) := by
  suffices h : (inner.withCarrier brand).Yields c fun d _ =>
      ∀ op : Operation, op.Guarded brand inner.table (d.table op) by
    obtain ⟨d, c', hcarrier, -, hguarded⟩ := h
    exact ⟨d, c', hcarrier, fun op hop => (hguarded op).carries hop, hguarded⟩
  exact Seed.yields_assemble rfl fun d id hd _ => guarded_of_definition? hcoerce hd

/-- Of two brands with one name, a carrier of the first one is foreign to the second one, and a raw
value is in no carrier: neither gets to what is bound beneath. -/
theorem brands_kept_boxed : ∃ inner c₀ d c, Effects.boxed.complete .empty = (.ok inner, c₀) ∧
    inner.supplies .coerce = false ∧ inner.withCarrier ⟨1, "m"⟩ c₀ = (.ok d, c) ∧
    ∀ (v : Value) (f : Callback) (b : Nat) (w : World),
      (d.table .bind (.carrier ⟨0, "m"⟩ v) f).run c b w =
        .finished (.error (.foreignCarrier ⟨1, "m"⟩ ⟨0, "m"⟩)) w ∧
      (d.table .bind .unit f).run c b w = .finished (.error (.expected .carried .unit)) w := by
  obtain ⟨inner, c₀, hcomplete, hcoerce⟩ : ∃ inner c₀,
      Effects.boxed.complete .empty = (.ok inner, c₀) ∧ inner.supplies .coerce = false :=
    ⟨_, _, rfl, rfl⟩
  obtain ⟨d, c, hcarrier, -, hguarded⟩ := brands_kept inner hcoerce ⟨1, "m"⟩ c₀
  refine ⟨inner, c₀, d, c, hcomplete, hcoerce, hcarrier, fun v f b w => ⟨?_, ?_⟩⟩
  · obtain ⟨g, -, hruns⟩ := hguarded .bind (.carrier ⟨0, "m"⟩ v) f
    exact hruns c b w
  · obtain ⟨g, -, hruns⟩ := hguarded .bind .unit f
    exact hruns c b w

end Definition

end EffectLayers
