import EffectLayers.Effects
import EffectLayers.Proofs.Assembly
import EffectLayers.Proofs.Program.Ends

/-!
# Laws of definitions

The laws that a definition may satisfy, as statements about runs. Two programs are the same if
they answer the same and differ only in what nobody notices.

## Main definitions

* `Definition.Constructs`, `Definition.Gives`: what makes effect values, and those.
* `Definition.Follows`: a program does what another one does.
* `Definition.Lawful`: continuing after `pure`.
* `Definition.LawfulExceptions`: exceptions skip continuations and reach handlers.

## Main statements

* `Effects.lawful_identity`, `Effects.lawful_either`: ready-made effects are lawful.
* `Effects.lawfulExceptions_either`: and so are the exceptions of `Ok` and `Err`.
-/

namespace EffectLayers

/-- A `map` that is not given continues with `pure`. -/
theorem Seed.map_of_definition? {s : Seed} {i : DefId} {d : Definition}
    (hd : s.definition? i = some d) (hmap : s.ops .map = none) (a : Value) (f : Callback) :
    d.table .map a f = d.table .bind a (f.map fun code v => do d.table .pure (← code v)) := by
  obtain ⟨lift, hlift, rfl⟩ := Option.map_eq_some_iff.mp hd
  simp only [table, map, hmap, Option.getD_none]

/-- A `cleanup` that is not given runs in a handler, after which the exception is raised again,
and otherwise after the result. -/
theorem Seed.cleanup_of_definition? {s : Seed} {i : DefId} {d : Definition}
    (hd : s.definition? i = some d) (hcleanup : s.ops .cleanup = none) (a : Value) (f : Action) :
    d.table .cleanup a f = (do
      let handled ← Prog.holding f.holds <| d.table .handle a <| f.map fun code e => do
        d.table .bind (← Prog.keeping [e] code)
          ⟨fun w => Prog.keeping [w] (d.table .raise e), { values := [e] }⟩
      d.table .bind handled <| f.map fun code v => do
        d.table .const (← Prog.keeping [v] code) v) := by
  obtain ⟨lift, hlift, rfl⟩ := Option.map_eq_some_iff.mp hd
  simp only [table, cleanup, hcleanup, Option.getD_none]

namespace Definition

variable {c : Catalog} {d : Definition}

/-- The programs that construct effect values. -/
inductive Constructs (d : Definition) : Prog Value → Prop where
  | pure (v : Value) : Constructs d (d.table .pure v)
  | raise (e : Value) : Constructs d (d.table .raise e)

/-- The value is an effect value: an answer of `pure` or of `raise`. -/
def Gives (c : Catalog) (d : Definition) (a : Value) (w : World) : Prop :=
  ∃ q, d.Constructs q ∧ q.Gave c a w

/-- From `w` the program does what `q` does from a world that differs in nothing that anybody
notices, as long as `q` gives an effect value. -/
def Follows (c : Catalog) (d : Definition) (p q : Prog Value) (w : World) : Prop :=
  ∃ w₁, w.Unnoticed w₁ ∧ ∀ a w₂, q.Ends c w₁ (.ok a) w₂ → d.Gives c a w₂ →
    ∃ w₃, p.Ends c w (.ok a) w₃ ∧ w₂.Unnoticed w₃

/-- The laws of continuing after `pure`: `bind(pure(v), f) = f(v)` and
`map(pure(v), f) = pure(f(v))`. -/
structure Lawful (c : Catalog) (d : Definition) : Prop where
  pure : ∀ v w, (d.table .pure v).Amounts c w [] (d.table .pure v)
  bind : ∀ v a w (f : Callback), (d.table .pure v).Gave c a w →
    d.Follows c (d.table .bind a f) (f.code v) w
  map : ∀ v a w (f : Callback), (d.table .pure v).Gave c a w →
    ∃ w₁, w.Unnoticed w₁ ∧ ∀ u w₂, (f.code v).Ends c w₁ (.ok u) w₂ →
      ∃ b w₃, (d.table .map a f).Ends c w (.ok b) w₃ ∧ w₂.Unnoticed w₃ ∧
        (d.table .pure u).Gave c b w₃

/-- The laws of exceptions: `bind(raise(e), f) = raise(e)`, `map(raise(e), f) = raise(e)`,
`handle(raise(e), h) = h(e)` and `handle(pure(v), h) = pure(v)`. -/
structure LawfulExceptions (c : Catalog) (d : Definition) : Prop where
  raise : ∀ e w, (d.table .raise e).Amounts c w [] (d.table .raise e)
  bind_raise : ∀ e a w (f : Callback), (d.table .raise e).Gave c a w →
    (d.table .bind a f).Amounts c w [] (d.table .raise e)
  map_raise : ∀ e a w (f : Callback), (d.table .raise e).Gave c a w →
    (d.table .map a f).Amounts c w [] (d.table .raise e)
  handle_raise : ∀ e a w (h : Callback), (d.table .raise e).Gave c a w →
    d.Follows c (d.table .handle a h) (h.code e) w
  handle_pure : ∀ v a w (h : Callback), (d.table .pure v).Gave c a w →
    (d.table .handle a h).Amounts c w [] (d.table .pure v)

/-- Whatever program `q` amounts to, so does one that follows it. -/
theorem Follows.amounts {p q r : Prog Value} {w : World} {ps : List (Prog Value)}
    (h : d.Follows c p q w) (hr : d.Constructs r)
    (hq : ∀ w₁, w.Unnoticed w₁ → q.Amounts c w₁ ps r) : p.Amounts c w ps r := by
  obtain ⟨w₁, hw₁, h⟩ := h
  obtain ⟨a, w₂, hends, hps, ha⟩ := hq w₁ hw₁
  obtain ⟨w₃, hp, hw₃⟩ := h a w₂ hends ⟨r, hr, ha⟩
  exact ⟨a, w₃, hp, (hps.after hw₁).before hw₃, ha.mono hw₃.grows⟩

/-- Mapping with a callback that only answers. -/
theorem Lawful.map_amounts (h : d.Lawful c) {v a u : Value} {w : World} {f : Callback}
    (ha : (d.table .pure v).Gave c a w) (hf : f.code v = Pure.pure u) :
    (d.table .map a f).Amounts c w [] (d.table .pure u) := by
  obtain ⟨w₁, hw₁, hmap⟩ := h.map v a w f ha
  rw [hf] at hmap
  obtain ⟨b, w₂, hends, hw₂, hb⟩ := hmap u w₁ (.done _ w₁)
  exact ⟨b, w₂, hends, hw₁.trans hw₂, hb⟩

/-! ## From the laws of one operation to those of others -/

theorem Follows.refl (p : Prog Value) (w : World) : d.Follows c p p w :=
  ⟨w, .refl w, fun _ w₂ h _ => ⟨w₂, h, .refl w₂⟩⟩

theorem Follows.holding {p q : Prog Value} {w : World} (h : Holding)
    (hp : d.Follows c p q (w.entering (.holding h))) :
    d.Follows c (Prog.holding h p) q w := by
  obtain ⟨w₁, hw₁, hp⟩ := hp
  refine ⟨w₁, (World.Unnoticed.entering w h).trans hw₁, fun a w₂ hq ha => ?_⟩
  obtain ⟨w₃, hp, hw₃⟩ := hp a w₂ hq ha
  exact ⟨_, hp.holding h, hw₃.trans (.leaving w₃ h w.toFrame)⟩

theorem Follows.call (f : Callback) (v : Value) (w : World) :
    d.Follows c (f.call v) (f.code v) w :=
  (refl (f.code v) _).holding f.holds

/-- A `map` that is derived from a lawful `bind` is lawful. -/
theorem Lawful.of_bind {s : Seed} {i : DefId} (hd : s.definition? i = some d)
    (hmap : s.ops .map = none)
    (hpure : ∀ v w, (d.table .pure v).Amounts c w [] (d.table .pure v))
    (hbind : ∀ v a w (f : Callback), (d.table .pure v).Gave c a w →
      d.Follows c (d.table .bind a f) (f.code v) w) : d.Lawful c := by
  refine ⟨hpure, hbind, fun v a w f ha => ?_⟩
  have hderived := Seed.map_of_definition? hd hmap a f
  obtain ⟨w₁, hw₁, hfollows⟩ :=
    hbind v a w (f.map fun code v => do d.table .pure (← code v)) ha
  refine ⟨w₁, hw₁, fun u w₂ hu => ?_⟩
  obtain ⟨b, w₃, hb, hw₃, hgave⟩ := hpure u w₂
  obtain ⟨w₄, hends, hw₄⟩ := hfollows b w₃ (hu.bind hb) ⟨_, .pure u, hgave⟩
  exact ⟨b, w₄, hderived ▸ hends, World.Unnoticed.trans hw₃ hw₄, hgave.mono hw₄.grows⟩

end Definition

/-! ## Ready-made effects -/

namespace Effects

variable {c : Catalog} {d : Definition} {i : DefId}

theorem lawful_identity (hd : identity.definition? i = some d) : d.Lawful c := by
  obtain rfl := Option.some.inj hd
  refine .of_bind hd rfl (fun v w => .answer (Prog.Ends.done _ w).gave) fun v a w f ha => ?_
  obtain rfl := ha.eq_of_pure
  exact .call f a w

theorem lawful_either (hd : either.definition? i = some d) : d.Lawful c := by
  obtain rfl := Option.some.inj hd
  refine .of_bind hd rfl (fun v w => .answer (Prog.Ends.done _ w).gave) fun v a w f ha => ?_
  obtain rfl := ha.eq_of_pure
  exact (Definition.Follows.call f v _).holding _

theorem lawfulExceptions_either (hd : either.definition? i = some d) :
    d.LawfulExceptions c := by
  obtain rfl := Option.some.inj hd
  constructor
  case raise =>
    intro e w
    exact .answer (Prog.Ends.done _ w).gave
  case bind_raise =>
    intro e a w f ha
    obtain rfl := ha.eq_of_pure
    exact .answer ha
  case map_raise =>
    intro e a w f ha
    obtain rfl := ha.eq_of_pure
    exact .answer ha
  case handle_raise =>
    intro e a w h ha
    obtain rfl := ha.eq_of_pure
    exact (Definition.Follows.call h e _).holding _
  case handle_pure =>
    intro v a w h ha
    obtain rfl := ha.eq_of_pure
    exact .answer ha

/-- A continuation of a single result runs once, and its results are taken as they are. -/
theorem bind_singleton (v : Value) (f : Callback) :
    results.bind (.list [v]) f = Prog.keeping [] (Prog.keeping [] (f.call v)) >>=
      fun r => do return Value.list ((← r.asList).reverse ++ []).reverse := by
  change (do return Value.list (← bindEach f [] (← (Value.list [v]).asList)).reverse) = _
  simp only [Value.asList, bindEach, pure_bind, bind_assoc]

end Effects

end EffectLayers
