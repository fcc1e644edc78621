import EffectLayers.Proofs.Layer.Extension
import EffectLayers.Proofs.Program.Equations

/-!
# Completing again

To extend a definition is to go back to what it was given. Completing the extension derives every
other operation once more, from what is given by then, so the result is what completing the seed
with the replacements makes, under another name and on another base. The name shows in the faults
of operations without a source. A handler that a derived `cleanup` makes may end in such a fault,
and what becomes of that depends on the `handle` that was given.

## Main definitions

* `Retitled`, `Prog.Retitled`: the same, up to which definition lacks an operation.
* `Signature.Retitled`: operations that do the same up to that.
* `Seed.HandsOn`: the faults of callbacks are handed on.

## Main statements

* `Seed.table_retitled`: what the name of a seed is used for.
* `Seed.complete_extended`: completing, extending and completing again.
-/

namespace EffectLayers

variable {α β : Type} {n n' : String}

/-! ## Faults that name a definition -/

/-- The same result, or an operation that definitions of the two names lack. -/
inductive Retitled (n n' : String) : Except Fault α → Except Fault α → Prop where
  | refl (r : Except Fault α) : Retitled n n' r r
  | lacking (op : Operation) :
      Retitled n n' (.error (.notImplemented op n)) (.error (.notImplemented op n'))

/-- Outcomes in the same world, of the same result up to which definition lacks an operation. -/
inductive Outcome.Retitled (n n' : String) : Outcome α → Outcome α → Prop where
  | halted (h : Halt) : Retitled n n' (.halted h) (.halted h)
  | finished {r r' : Except Fault α} (h : EffectLayers.Retitled n n' r r') (w : World) :
      Retitled n n' (.finished r w) (.finished r' w)

namespace Outcome.Retitled

theorem refl (o : Outcome α) : o.Retitled n n' o := by
  cases o with
  | halted h => exact halted h
  | finished r w => exact finished (.refl r) w

theorem bind {o o' : Outcome α} {k l : α → World → Outcome β} (h : o.Retitled n n' o')
    (hk : ∀ a w, (k a w).Retitled n n' (l a w)) : (o.bind k).Retitled n n' (o'.bind l) := by
  cases h with
  | halted h => exact halted h
  | @finished r _ h w =>
    cases h with
    | refl =>
      cases r with
      | ok a => exact hk a w
      | error e => exact refl _
    | lacking op => exact finished (.lacking op) w

theorem onward {o o' : Outcome α} (h : o.Retitled n n' o') (after : World → World) :
    (o.onward fun r w => .finished r (after w)).Retitled n n'
      (o'.onward fun r w => .finished r (after w)) := by
  cases h with
  | halted h => exact halted h
  | finished h w => exact finished h (after w)

end Outcome.Retitled

/-- Programs that do the same up to which definition lacks an operation. -/
def Prog.Retitled (n n' : String) (p q : Prog α) : Prop :=
  ∀ (c : Catalog) (b : Nat) (w : World), (p.run c b w).Retitled n n' (q.run c b w)

namespace Prog.Retitled

theorem refl (p : Prog α) : p.Retitled n n' p := fun _ _ _ => .refl _

theorem missing (op : Operation) :
    (Prog.missing op n).Retitled n n' (Prog.missing op n') :=
  fun _ _ w => .finished (.lacking op) w

theorem bind {p q : Prog α} {f g : α → Prog β} (h : p.Retitled n n' q)
    (hf : ∀ a, (f a).Retitled n n' (g a)) : (p >>= f).Retitled n n' (q >>= g) := by
  intro c b w
  rw [run_bind, run_bind]
  exact (h c b w).bind fun a w => hf a c b w

theorem bind_left {p q : Prog α} (h : p.Retitled n n' q) (f : α → Prog β) :
    (p >>= f).Retitled n n' (q >>= f) :=
  h.bind fun _ => refl _

theorem bind_right (p : Prog α) {f g : α → Prog β} (hf : ∀ a, (f a).Retitled n n' (g a)) :
    (p >>= f).Retitled n n' (p >>= g) :=
  (refl p).bind hf

theorem holding (held : Holding) {p q : Prog α} (h : p.Retitled n n' q) :
    (Prog.holding held p).Retitled n n' (Prog.holding held q) := by
  intro c b w
  rw [Prog.holding, Prog.holding, run_inside, run_inside]
  exact (h c b _).onward fun w' => w'.leaving (.holding held) w.toFrame

end Prog.Retitled

/-- Callbacks that hold the same and do the same up to which definition lacks an operation. -/
structure Closure.Retitled (n n' : String) (f g : Callback) : Prop where
  holds : f.holds = g.holds
  code : ∀ v, (f.code v).Retitled n n' (g.code v)

theorem Closure.Retitled.call {f g : Callback} (h : f.Retitled n n' g) (v : Value) :
    (f.call v).Retitled n n' (g.call v) := by
  obtain ⟨code, holds⟩ := f
  obtain ⟨code', holds'⟩ := g
  obtain ⟨rfl, h⟩ := h
  exact (h v).holding _

/-- Operations that on all arguments do the same up to which definition lacks an operation. -/
def Signature.Retitled (n n' : String) : (op : Operation) → Signature op → Signature op → Prop
  | .pure, f, g | .raise, f, g | .coerce, f, g | .join, f, g | .opt, f, g | .reflect, f, g
  | .pack, f, g | .unpack, f, g => ∀ v, (f v).Retitled n n' (g v)
  | .pair, f, g | .const, f, g | .unshiftTo, f, g | .plus, f, g =>
    ∀ a b, (f a b).Retitled n n' (g a b)
  | .bind, f, g | .map, f, g | .handle, f, g => ∀ a k, (f a k).Retitled n n' (g a k)
  | .arr, f, g | .alt, f, g => ∀ items, (f items).Retitled n n' (g items)
  | .empty, f, g => Prog.Retitled n n' f g
  | .cleanup, f, g => ∀ a action, (f a action).Retitled n n' (g a action)
  | .block, f, g | .scope, f, g => ∀ body, (f body).Retitled n n' (g body)
  | .iterate, f, g => ∀ body v, (f body v).Retitled n n' (g body v)
  | .forPar, f, g => ∀ test body step v, (f test body step v).Retitled n n' (g test body step v)
  | .seq, f, g => ∀ source, (f source).Retitled n n' (g source)
  | .run, f, g | .reify, f, g => ∀ action, (f action).Retitled n n' (g action)

theorem Signature.Retitled.of_eq {op : Operation} {f g : Signature op} (h : f = g) :
    Signature.Retitled n n' op f g := by
  subst h
  cases op <;> simp only [Signature.Retitled] <;> intros <;> exact Prog.Retitled.refl _

/-! ## What the name of a seed is used for -/

namespace Seed

/-- The operations that a derived `cleanup` sequences with hand on the faults of callbacks. -/
structure HandsOn (s : Seed) : Prop where
  handle : ∀ handle, s.ops .handle = some handle → ∀ (n n' : String) a f g,
    f.Retitled n n' g → (handle a f).Retitled n n' (handle a g)
  bind : ∀ (n n' : String) a f g, f.Retitled n n' g → (s.bind a f).Retitled n n' (s.bind a g)

variable {s t : Seed} (h : s.ops = t.ops) (lift : Value → Prog Value)

include h

theorem plus_retitled (a b : Value) : (s.plus a b).Retitled s.title t.title (t.plus a b) := by
  simp only [plus, h]
  cases t.ops .plus with
  | some plus => exact .refl _
  | none =>
    cases t.ops .alt with
    | some alt => exact .refl _
    | none => exact .missing .plus

theorem empty_retitled : Prog.Retitled s.title t.title s.empty t.empty := by
  simp only [empty, h]
  cases t.ops .empty with
  | some empty => exact .refl _
  | none =>
    cases t.ops .alt with
    | some alt => exact .refl _
    | none => exact .missing .empty

theorem sum_retitled (acc : Value) (items : List Value) :
    (s.sum acc items).Retitled s.title t.title (t.sum acc items) := by
  induction items generalizing acc with
  | nil => exact .refl _
  | cons v rest ih => exact ((plus_retitled h acc v).holding _).bind ih

theorem raise_retitled (v : Value) : (s.raise v).Retitled s.title t.title (t.raise v) := by
  unfold raise
  rw [h]
  cases t.ops .raise with
  | some raise => exact .refl _
  | none => exact .missing .raise

/-- The handler of a derived `cleanup` raises again. -/
theorem cleanup_retitled (a : Value) (f : Action)
    (ht : t.supplies .cleanup = true ∨ t.supplies .raise = true ∨ t.supplies .handle = false ∨
      t.HandsOn) :
    (s.cleanup lift a f).Retitled s.title t.title (t.cleanup lift a f) := by
  unfold cleanup
  rw [Seed.bind_congr h, const_congr h, h]
  cases hcleanup : t.ops .cleanup with
  | some cleanup => exact .refl _
  | none =>
    refine .bind_left (.holding _ ?_) _
    unfold handle
    rw [h]
    cases hhandle : t.ops .handle with
    | none => exact .missing .handle
    | some handle =>
      rcases ht with hgiven | hgiven | hgiven | ht
      · simp [supplies, hcleanup] at hgiven
      · obtain ⟨raise, hraise⟩ := Option.isSome_iff_exists.mp hgiven
        simp only [Seed.raise, h, hraise]
        exact .refl _
      · simp [supplies, hhandle] at hgiven
      · refine ht.handle handle hhandle _ _ a _ _ ⟨rfl, fun e => .bind_right _ fun v => ?_⟩
        exact ht.bind _ _ v _ _ ⟨rfl, fun w => (raise_retitled h e).holding _⟩

/-- The name of a seed is used only for the faults of operations without a source. The handler of a
derived `cleanup` may end in one; whoever calls it has to hand the fault on. -/
theorem table_retitled (op : Operation)
    (hcleanup : op = .cleanup → t.supplies .cleanup = true ∨ t.supplies .raise = true ∨
      t.supplies .handle = false ∨ t.HandsOn) :
    Signature.Retitled s.title t.title op (s.table lift op) (t.table lift op) := by
  cases op with
  | raise => exact raise_retitled h
  | handle =>
    intro a k
    simp only [table, handle, h]
    cases t.ops .handle with
    | some handle => exact .refl _
    | none => exact .missing .handle
  | cleanup => exact fun a f => cleanup_retitled h lift a f (hcleanup rfl)
  | alt =>
    intro items
    simp only [table, alt, h]
    cases t.ops .alt with
    | some alt => exact .refl _
    | none =>
      cases items with
      | nil => exact empty_retitled h
      | cons first rest => exact sum_retitled h first rest
  | plus => exact plus_retitled h
  | empty => exact empty_retitled h
  | opt =>
    intro a
    simp only [table, opt, h]
    cases t.ops .opt with
    | some opt => exact .refl _
    | none => exact .bind_right _ fun v => plus_retitled h a v
  | block =>
    intro body
    simp only [table, block, h]
    cases t.ops .block with
    | some block => exact .refl _
    | none => exact .missing .block
  | scope =>
    intro body
    simp only [table, scope, h]
    cases t.ops .scope with
    | some scope => exact .refl _
    | none =>
      cases t.ops .block with
      | some block => exact .refl _
      | none => exact .missing .scope
  | _ => exact .of_eq (table_congr_of_untitled h lift rfl)

end Seed

/-! ## Completing again -/

theorem Definition.extend_of_context_eq_none (home : BrandId → Option DefId) (layer : String) :
    (d : Definition) → d.context = none → d.extend home layer =
      { Seed.onTop d layer with
        ops := fun op => if d.supplies op then some (d.table op) else none }
  | ⟨_, _, some _, none, _, _, _⟩, _ => rfl
  | ⟨_, _, none, none, _, _, _⟩, _ => rfl

/-- `e` is what completing `t` makes under another name and on the base `d`, and `e'` is what
completing it makes. -/
structure Definition.Recompletes (t : Seed) (d : Definition) (layer : String) (e e' : Definition) :
    Prop where
  name : e.name = e'.name ++ "+" ++ layer
  base : e.base = some d
  supplied : e.supplied = e'.supplied
  context : e.context = e'.context
  carrierBrand : e.carrierBrand? = e'.carrierBrand?
  table : e'.table = t.table (e'.table .pure)
  /-- Every operation is derived anew. -/
  derived : e.table = { t with name := some e.name }.table (e'.table .pure)
  behaviour : ∀ op, (op = .cleanup → t.supplies .cleanup = true ∨ t.supplies .raise = true ∨
    t.supplies .handle = false ∨ t.HandsOn) →
      Signature.Retitled e.name e'.name op (e.table op) (e'.table op)

namespace Seed

variable {s t : Seed} {id : DefId} {d : Definition}

/-- What the seed gives, on top of a definition. -/
def onto (s : Seed) (d : Definition) (layer : String) : Seed := { onTop d layer with ops := s.ops }

/-- Replacements are made for what is given, wherever that is. -/
theorem overriding_onto (layer : String) (overrides : List Override) :
    (s.onto d layer).overriding overrides = (s.overriding overrides).onto d layer := by
  induction overrides generalizing s with
  | nil => rfl
  | cons o overrides ih => exact ih (s := s.set o.1 o.2)

/-- To extend a definition is to go back to what its seed gave. -/
theorem extend_of_definition? (hd : s.definition? id = some d) (hcontext : s.context = none)
    (home : BrandId → Option DefId) (layer : String) :
    d.extend home layer = s.onto d layer := by
  obtain ⟨lift, hlift, rfl⟩ := Option.map_eq_some_iff.mp hd
  rw [Definition.extend_of_context_eq_none _ _ _ hcontext]
  refine congrArg (fun ops => ({ onTop _ layer with ops } : Seed)) (funext fun op => ?_)
  change (if s.supplies op = true then some (s.table lift op) else none) = s.ops op
  cases hop : s.ops op with
  | none => simp [supplies, hop]
  | some f => simp [supplies, hop, table_of_given hlift hop]

theorem carrierBrand?_definition? (hd : s.definition? id = some d) :
    d.carrierBrand? = s.brand.or (s.base.bind Definition.carrierBrand?) := by
  obtain ⟨lift, -, rfl⟩ := Option.map_eq_some_iff.mp hd
  rw [Definition.carrierBrand?.eq_def]
  cases s.brand <;> cases s.base <;> rfl

/-- A seed on top of what it made once makes the same again, under another name. -/
theorem recompletes {i j : DefId} {e e' : Definition} (hd : s.definition? id = some d)
    (hcontext : s.context = none) (layer : String) (overrides : List Override)
    (he : ((s.overriding overrides).onto d layer).definition? i = some e)
    (he' : (s.overriding overrides).definition? j = some e') :
    Definition.Recompletes (s.overriding overrides) d layer e e' := by
  have ht := overrides_overriding s overrides
  have hbrand : e.carrierBrand? = e'.carrierBrand? := by
    rw [carrierBrand?_definition? he, carrierBrand?_definition? he', ht.base, brand_overriding]
    exact carrierBrand?_definition? hd
  have hname : d.name = (s.overriding overrides).title := by
    obtain ⟨lift, -, rfl⟩ := Option.map_eq_some_iff.mp hd
    simp only [title, name_overriding]
  obtain ⟨lift, hlift, rfl⟩ := Option.map_eq_some_iff.mp he
  obtain ⟨_, hlift', rfl⟩ := Option.map_eq_some_iff.mp he'
  obtain rfl := Option.some.inj (hlift.symm.trans hlift')
  exact {
    name := congrArg (· ++ "+" ++ layer) hname
    base := rfl
    supplied := rfl
    context := (ht.context.trans hcontext).symm
    carrierBrand := hbrand
    table := rfl
    derived := table_congr (s := (s.overriding overrides).onto d layer)
      (t := { s.overriding overrides with name := some (d.name ++ "+" ++ layer) }) rfl lift rfl
    behaviour := table_retitled (s := (s.overriding overrides).onto d layer)
      (t := s.overriding overrides) rfl lift }

/-- A seed is completed, what it makes is extended, and the extension is completed: that makes what
completing the seed with the replacements does, but for the name and the base. No operation that was
derived the first time is kept. Only the faults of operations without a source tell the names apart,
and what a given operation makes of such a fault in the handler of a derived `cleanup`. -/
theorem complete_extended (hs : s.Made) (hpure : s.supplies .pure = true)
    (hreinstall : s.reinstall = none) (layer : String) (overrides : List Override) (c : Catalog) :
    ∃ d c₁, s.complete c = (.ok d, c₁) ∧ ∀ home c₂ c₃, ∃ e c₄ e' c₅,
      ((d.extend home layer).overriding overrides).complete c₂ = (.ok e, c₄) ∧
      (s.overriding overrides).complete c₃ = (.ok e', c₅) ∧
      Definition.Recompletes (s.overriding overrides) d layer e e' := by
  have hcontext := hs.grounded.context
  have ht := overrides_overriding s overrides
  have hmakes {t : Seed} (ht : t.reinstall = none) (htpure : t.supplies .pure = true)
      (c : Catalog) : ∃ d c₁, t.complete c = (.ok d, c₁) ∧ ∃ id, t.definition? id = some d := by
    obtain ⟨d, c₁, hcomplete, -, hd⟩ :
        t.complete.Yields c fun d _ => ∃ id, t.definition? id = some d :=
      yields_complete ht htpure fun _ id hd _ => ⟨id, hd⟩
    exact ⟨d, c₁, hcomplete, hd⟩
  obtain ⟨d, c₁, hcomplete, id, hd⟩ := hmakes hreinstall hpure c
  refine ⟨d, c₁, hcomplete, fun home c₂ c₃ => ?_⟩
  have htpure := ht.supplies .pure hpure
  obtain ⟨e, c₄, hagain, i, he⟩ := hmakes (t := (s.overriding overrides).onto d layer) rfl htpure c₂
  obtain ⟨e', c₅, honce, j, he'⟩ := hmakes (ht.reinstall.trans hreinstall) htpure c₃
  refine ⟨e, c₄, e', c₅, ?_, honce, recompletes hd hcontext layer overrides he he'⟩
  rwa [extend_of_definition? hd hcontext, overriding_onto]

/-- `identity` is extended with a `handle`, for which it lacks a `raise`. -/
theorem complete_extended_identity :
    ∃ d c₁ e c₂ e' c₃, Effects.identity.complete .empty = (.ok d, c₁) ∧
      ((d.extend c₁.home "x").overriding [⟨.handle, fun a f => f.call a⟩]).complete c₁ =
        (.ok e, c₂) ∧
      (Effects.identity.overriding [⟨.handle, fun a f => f.call a⟩]).complete c₂ = (.ok e', c₃) ∧
      e.name = e'.name ++ "+" ++ "x" ∧
      Signature.Retitled e.name e'.name .cleanup (e.table .cleanup) (e'.table .cleanup) := by
  let handle : Override := ⟨.handle, fun a f => f.call a⟩
  obtain ⟨d, c₁, hcomplete, h⟩ :=
    complete_extended (.plain _ _) rfl rfl "x" [handle] .empty (s := Effects.identity)
  obtain ⟨e, c₂, -, -, hagain, -, -⟩ := h c₁.home c₁ c₁
  obtain ⟨e₁, c₃, e', c₄, hagain', honce, hboth⟩ := h c₁.home c₁ c₂
  cases hagain.symm.trans hagain'
  have hhands : (Effects.identity.overriding [handle]).HandsOn := {
    handle := fun g hg n n' a k l hkl => Option.some.inj hg ▸ hkl.call a
    bind := fun n n' a k l hkl => hkl.call a }
  refine ⟨d, c₁, e, c₂, e', c₄, hcomplete, hagain, honce, ?_, ?_⟩
  · exact hboth.name
  · exact hboth.behaviour .cleanup fun _ => .inr (.inr (.inr hhands))

/-- `identity` with a `handle` that catches the fault of its callback and answers whether that names
`identity`. -/
def nosy : Seed :=
  Effects.identity.set .handle fun a f => do
    match ← (f.call a).outcome with
    | .error (.notImplemented _ name) => pure (.bool (name == "identity"))
    | _ => pure a

/-- Whether `cleanup` of an action that does nothing answers the truth value. -/
def cleansTo (truth : Bool) (d : Definition) (c : Catalog) : Bool :=
  match (d.table .cleanup (.int 1) ⟨pure .unit, { }⟩).run c 0 .empty with
  | .finished (.ok (.bool b)) _ => b == truth
  | _ => false

theorem run_of_cleansTo {truth : Bool} {c : Catalog} (h : cleansTo truth d c = true) :
    ∃ w, (d.table .cleanup (.int 1) ⟨pure .unit, { }⟩).run c 0 .empty =
      .finished (.ok (.bool truth)) w := by
  unfold cleansTo at h
  split at h
  case h_1 b w hrun => exact ⟨w, hrun.trans (by rw [beq_iff_eq.mp h])⟩
  case h_2 => cases h

/-- A `handle` that looks at the name in a fault answers otherwise once the definition is
extended. -/
theorem complete_extended_nosy :
    ∃ d c₁ e c₂ w w', nosy.complete .empty = (.ok d, c₁) ∧
      ((d.extend c₁.home "x").overriding []).complete c₁ = (.ok e, c₂) ∧
      (d.table .cleanup (.int 1) ⟨pure .unit, { }⟩).run c₁ 0 .empty =
        .finished (.ok (.bool true)) w ∧
      (e.table .cleanup (.int 1) ⟨pure .unit, { }⟩).run c₁ 0 .empty =
        .finished (.ok (.bool false)) w' ∧
      ¬ Signature.Retitled e.name d.name .cleanup (e.table .cleanup) (d.table .cleanup) := by
  obtain ⟨d, c₁, hd, h⟩ := Assembly.exists_of_makes (m := nosy.complete) (c := .empty)
    (T := fun d c => cleansTo true d c && ((d.extend c.home "x").overriding []).complete.makes c
      fun e _ => cleansTo false e c) (by decide +kernel)
  obtain ⟨htrue, h⟩ := Bool.and_eq_true_iff.mp h
  obtain ⟨e, c₂, he, hfalse⟩ := Assembly.exists_of_makes h
  obtain ⟨w, htrue⟩ := run_of_cleansTo htrue
  obtain ⟨w', hfalse⟩ := run_of_cleansTo hfalse
  refine ⟨d, c₁, e, c₂, w, w', hd, he, htrue, hfalse, fun hsame => ?_⟩
  have hends := hsame (.int 1) ⟨pure .unit, { }⟩ c₁ 0 .empty
  rw [htrue, hfalse] at hends
  rcases hends with _ | ⟨h, -⟩
  cases h

end Seed

end EffectLayers
