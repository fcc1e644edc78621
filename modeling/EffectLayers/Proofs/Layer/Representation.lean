import EffectLayers.Proofs.Layer.Client
import EffectLayers.Proofs.Session.Parametric

/-!
# Carriers represent faithfully

Whatever a client does on a carrier layer it does on the definition beneath, in carriers: each
effect value is unpacked once on its way in and packed once on its way out. What the carrier layer
leaves to be derived must be derived beneath as well.

## Main definitions

* `Packing.correspondence`: effect values in carriers.
* `Operation.left`: the operations that a carrier layer leaves to be derived.

## Main statements

* `Packing.related_of_definition?`: a carrier layer corresponds to what is beneath.
* `Definition.represents`: a client shows the same on both.
-/

namespace EffectLayers

open Correspondence

namespace Packing

variable (w : Packing)

/-- Effect values in carriers of the brand. -/
def correspondence : Correspondence := ⟨w.pack, .ok, fun _ => rfl⟩

variable {w} {b : Bool} {p q : Prog Value}

theorem answers_correspondence : w.correspondence.Answers b p q ↔ p.Similar (w.packed q) := by
  cases b with
  | false => exact .rfl
  | true =>
    have hp : (p >>= fun v => .done (.ok v)) = p := bind_pure p
    change (p >>= fun v => .done (.ok v)).Similar (w.packed q) ↔ _
    rw [hp]

theorem answers_packed {p q : Prog Value} (h : p.Similar q) (b : Bool) :
    w.correspondence.Answers b (w.packed p) q :=
  answers_correspondence.mpr (h.bind_left _)

theorem unpacked_similar_of_answers (h : w.correspondence.Answers b p q) :
    (w.unpacked p).Similar q :=
  w.unpacked_packed q ▸ (answers_correspondence.mp h).bind_left w.unpack

theorem unpacking_similar_of {k l : Callback} (hkl : w.correspondence.Calls true k l) :
    Closure.Similar (w.unpacking k) l :=
  ⟨hkl.holds, fun v => unpacked_similar_of_answers (hkl.code v)⟩

theorem unpacked_similar_of {k l : Action} (hkl : w.correspondence.Acts k l) :
    Action.Similar (k.map w.unpacked) l :=
  ⟨hkl.holds, unpacked_similar_of_answers hkl.code⟩

theorem blockBody_similar_of {k l : Body} (hkl : w.correspondence.Bodies k l) :
    same.Bodies (w.blockBody k) l := by
  refine ⟨hkl.holds, fun escape escape' hescape => answers_same.mpr ?_⟩
  have hescape := calls_same.mp hescape
  exact unpacked_similar_of_answers
    (hkl.code _ escape' ⟨hescape.holds, fun v => answers_packed (hescape.code v) false⟩)

theorem holding_unpack_pack (h : Holding) (v : Value) :
    (Prog.holding h (w.unpack (w.pack v))).Similar (pure v) := by
  rw [unpack_pack]
  exact .around _ _ .done

theorem values_similar_pack (v : Value) :
    Holding.Similar { values := [w.pack v] } { values := [v] } :=
  ⟨rfl, rfl⟩

theorem answers_bindWith {α : Type 1} (op : Value → Closure α → Prog Value) (k : Closure α)
    {a : Value} {q : Prog Value} (hop : (op a k).Similar q) :
    w.correspondence.Answers false (w.bindWith op (w.pack a) k) q := by
  refine answers_correspondence.mpr ?_
  exact ((holding_unpack_pack k.holds a).bind_left _).trans (hop.bind_left _)

theorem answers_unpackBoth (op : Value → Value → Prog Value) (x y : Value) :
    w.correspondence.Answers false
      (do
        let (x, y) ← w.unpackBoth (w.pack x) (w.pack y)
        w.packed (op x y)) (op x y) := by
  refine answers_correspondence.mpr ?_
  simp only [unpackBoth, bind_assoc, pure_bind]
  refine ((holding_unpack_pack _ x).bind_left _).trans ?_
  exact (holding_unpack_pack _ y).bind_left _

theorem unpackAll_map_pack (items : List Value) :
    (w.unpackAll (items.map w.pack)).Similar (pure items) := by
  induction items with
  | nil => exact .refl _
  | cons v vs ih =>
    refine ((holding_unpack_pack _ v).bind_left _).trans ?_
    have hrest : (Prog.keeping [v] (w.unpackAll (vs.map w.pack))).Similar (pure vs) :=
      (ih.inside _).trans (.around _ _ .done)
    exact hrest.bind_left _

theorem answers_unpackAll (op : List Value → Prog Value) (items : List Value) :
    w.correspondence.Answers false
      (do w.packed (op (← w.unpackAll (items.map w.pack)))) (op items) :=
  answers_correspondence.mpr ((unpackAll_map_pack items).bind_left _)

end Packing

/-- The operations that make effect values and that a carrier layer leaves to be derived. -/
def Operation.left : List Operation := [const, unshiftTo, opt, seq]

namespace Packing

variable {inner d : Definition} {w : Packing} {id : DefId}

/-- What a carrier layer gives corresponds to what is beneath. -/
theorem related_given (h : inner.table.Parametric) (hd : (w.seed inner).definition? id = some d)
    {op : Operation} (hop : op ∉ Operation.left) (hreify : op ≠ .reify) :
    op.Related w.correspondence (d.table op) (inner.table op) := by
  obtain rfl := Option.some.inj hd
  cases op with
  | pure | raise => exact fun v => answers_packed (.refl _) false
  | bind =>
    exact fun a k l hkl => answers_bindWith (fun a f => inner.table .bind a (w.unpacking f)) k
      (h.bind_similar a (unpacking_similar_of hkl))
  | handle =>
    exact fun a k l hkl => answers_bindWith (fun a f => inner.table .handle a (w.unpacking f)) k
      (h.handle_similar a (unpacking_similar_of hkl))
  | map => exact fun a k l hkl => answers_bindWith _ k (h.map_similar a hkl)
  | cleanup =>
    exact fun a k l hkl => answers_bindWith (fun a f => inner.table .cleanup a (f.map w.unpacked)) k
      (h.cleanup_similar a (unpacked_similar_of hkl))
  | pair | plus => exact answers_unpackBoth _
  | arr | alt => exact answers_unpackAll _
  | empty => exact answers_packed (.refl _) false
  | block =>
    exact fun k l hkl => answers_packed (h.block_similar (blockBody_similar_of hkl)) false
  | scope =>
    exact fun k l hkl => answers_packed (h.scope_similar (blockBody_similar_of hkl)) false
  | iterate =>
    exact fun k l hkl v =>
      answers_packed (h.iterate_similar (unpacking_similar_of hkl) v) false
  | forPar =>
    exact fun test test' k l step step' htest hkl hstep v =>
      answers_packed (h.forPar_similar htest (unpacking_similar_of hkl) hstep v) false
  | run => exact fun k l hkl => h.run_similar (unpacked_similar_of hkl)
  | const | unshiftTo | opt | seq => exact absurd (by decide) hop
  | reify => exact absurd rfl hreify
  | join | coerce | reflect | pack | unpack => trivial

/-- A carrier layer corresponds to what is beneath, if that derives what the layer derives. -/
theorem related_of_definition? {s : Seed} {i : DefId} (hinner : s.definition? i = some inner)
    (h : inner.table.Parametric) (hleft : ∀ op ∈ Operation.left, inner.supplies op = false)
    (hd : (w.seed inner).definition? id = some d) {op : Operation} (hreify : op ≠ .reify) :
    op.Related w.correspondence (d.table op) (inner.table op) := by
  have hgiven (op : Operation) (hop : op ∉ Operation.left) (hreify : op ≠ .reify) :=
    related_given h hd hop hreify
  have hderived (op : Operation) (hop : op ∈ Operation.left) : d.supplies op = false := by
    rw [Seed.supplies_of_definition? hd]
    simp only [Operation.left, List.mem_cons, List.not_mem_nil, or_false] at hop
    rcases hop with rfl | rfl | rfl | rfl <;> rfl
  by_cases hop : op ∈ Operation.left
  case neg => exact hgiven op hop hreify
  have hd' := hderived op hop
  have hinner' := hleft op hop
  cases op with
  | const =>
    intro a v
    rw [Seed.table_const hd hd', Seed.table_const hinner hinner']
    exact hgiven .map (by decide) nofun a _ _ (.refl _)
  | unshiftTo =>
    intro a items
    rw [Seed.table_unshiftTo hd hd', Seed.table_unshiftTo hinner hinner']
    exact hgiven .map (by decide) nofun a _ _ (.refl _)
  | opt =>
    intro a
    rw [Seed.table_opt hd hd', Seed.table_opt hinner hinner']
    have hunit : w.correspondence.Answers false _ _ := hgiven .pure (by decide) nofun .unit
    refine .bind (hunit.holding (values_similar_pack a)) fun v => ?_
    exact hgiven .plus (by decide) nofun a v
  | seq =>
    exact Seed.seq_related hd hinner hd' hinner' (hgiven .bind (by decide) nofun)
      (hgiven .pure (by decide) nofun)
  | _ => exact absurd hop (by decide)

end Packing

namespace Definition

/-- Every definition of a session is genuine. On top of every genuine definition that derives
`const`, `unshiftTo`, `opt` and `seq` there is a carrier layer of any brand, and what a client
answers on it shows, unpacked, what it does on the definition beneath. -/
theorem represents :
    (∀ ts rs, Session.run ts .empty = some rs → ∀ r ∈ rs, ∀ i d, r.2.catalog.get? i = some d →
      d.Genuine) ∧
    ∀ inner : Definition, inner.Genuine → (∀ op ∈ Operation.left, inner.supplies op = false) →
      ∀ (brand : Brand) (c : Catalog), ∃ d c', inner.withCarrier brand c = (.ok d, c') ∧
        ∀ (p : Client (fun _ => False) (fun _ => False) false 0 0) (c : Catalog) (b : Nat)
          (w : World),
          ((do d.table .unpack (← p.on d.table Pure.pure Fin.elim0 Fin.elim0)).run c b w).observed =
            ((p.on inner.table Pure.pure Fin.elim0 Fin.elim0).run c b w).observed := by
  refine ⟨fun ts rs hr r hmem i d hd => Session.genuine_run hr hmem hd, ?_⟩
  rintro inner ⟨⟨s, i, hinner⟩, h⟩ hleft brand c
  let packing := inner.packing brand
  suffices hyields : (inner.withCarrier brand).Yields c fun d _ =>
      ∃ id, (packing.seed inner).definition? id = some d by
    obtain ⟨d, c', hcarrier, -, id, hd⟩ := hyields
    refine ⟨d, c', hcarrier, fun p c b w => Prog.Similar.observed_run ?_ c b w⟩
    have hunpack : d.table .unpack = packing.unpack := Seed.table_given hd .unpack rfl
    have hanswers : packing.correspondence.Answers false
        (p.on d.table Pure.pure Fin.elim0 Fin.elim0)
        (p.on inner.table Pure.pure Fin.elim0 Fin.elim0) :=
      p.answers_on (fun op => Packing.related_of_definition? hinner h hleft hd) nofun nofun
        (fun k => k.elim0) (fun j => j.elim0)
    rw [hunpack]
    exact Packing.unpacked_similar_of_answers hanswers
  exact Seed.yields_assemble rfl fun d id hd _ => ⟨id, hd⟩

/-- A carrier layer on what a session made: `either` with escape control. -/
theorem represents_either : ∃ rs, Session.run [.define "d" (.layers .either [.escape])] .empty =
      some rs ∧ ∃ r ∈ rs, ∃ inner, r.2.catalog.get? 1 = some inner ∧ inner.Genuine ∧
    (∀ op ∈ Operation.left, inner.supplies op = false) ∧
    ∃ d c', inner.withCarrier ⟨0, "m"⟩ r.2.catalog = (.ok d, c') ∧
      ∀ (p : Client (fun _ => False) (fun _ => False) false 0 0) (c : Catalog) (b : Nat)
        (w : World),
        ((do d.table .unpack (← p.on d.table Pure.pure Fin.elim0 Fin.elim0)).run c b w).observed =
          ((p.on inner.table Pure.pure Fin.elim0 Fin.elim0).run c b w).observed := by
  obtain ⟨reply, s, hrun, inner, hget, hleft⟩ : ∃ reply s,
      Session.run [.define "d" (.layers .either [.escape])] .empty = some [(reply, s)] ∧
      ∃ inner, s.catalog.get? 1 = some inner ∧
        ∀ op ∈ Operation.left, inner.supplies op = false :=
    ⟨_, _, rfl, _, rfl, by decide⟩
  have hmem : (reply, s) ∈ [(reply, s)] := List.mem_cons_self
  have hinner : inner.Genuine := represents.1 _ _ hrun _ hmem 1 inner hget
  exact ⟨_, hrun, _, hmem, inner, hget, hinner, hleft,
    represents.2 inner hinner hleft ⟨0, "m"⟩ s.catalog⟩

end Definition

end EffectLayers
