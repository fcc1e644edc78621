import EffectLayers.Effects
import EffectLayers.Proofs.Layer.Stack

/-!
# Monads by either route

A monad is given by `pure` and `bind`, or by `pure`, `map` and `join`; a seed may give either, and
the other operations are derived. The laws of what is derived follow from the laws of what is given.
They are about callbacks without effects of their own, which may fault. A law says that its two
sides compute the same.

## Main definitions

* `Prog.Agree`, `Closure.Agree`: what computes the same.
* `Typing`: types of values, and of the effect values with such results.
* `BindLaws`: the laws of `pure` and `bind`.
* `MapLaws`, `JoinLaws`, `NaturalLaws`: the laws of `map`, and of `join` and `pure` with it.
* `Maps`: to map is to continue with `pure`.
* `Definition.SameMonad`: a context layer on top changes none of this.

## Main statements

* `BindLaws.mapLaws`, `BindLaws.joinLaws`: from `bind` to `map` and `join`.
* `BindLaws.of_join`, `Maps.of_join`: from `map` and `join` to `bind`.
* `Seed.derives_monad`: what a seed derives is lawful by either route.
-/

namespace EffectLayers

variable {S : Setting} {P Q R : Value → Prop}

/-! ## Computing the same -/

/-- The programs compute the same: a value with the property, or a fault. -/
def Prog.Agree (S : Setting) (P : Value → Prop) (p q : Prog Value) : Prop :=
  ∃ r, (∀ a, r = .ok a → P a) ∧ p.Computes S r ∧ q.Computes S r

namespace Prog

variable {p q s : Prog Value}

/-- A program computes one result, if there is a world to start from. -/
theorem Computes.unique {r r' : Except Fault Value} (h : p.Computes S r) (h' : p.Computes S r') :
    r = r' ∨ ∀ (q : Prog Value) r, q.Computes S r := by
  obtain ⟨n, h⟩ := h
  obtain ⟨m, h'⟩ := h'
  by_cases hw : ∃ w, S.admits w
  · obtain ⟨w, hw⟩ := hw
    obtain ⟨w₁, hrun, -⟩ := h (max n m) w (by omega) hw
    obtain ⟨w₂, hrun', -⟩ := h' (max n m) w (by omega) hw
    have hends := hrun.symm.trans hrun'
    simp only [Outcome.finished.injEq] at hends
    exact .inl hends.1
  · exact .inr fun q r => ⟨0, fun b w _ hadmits => absurd ⟨w, hadmits⟩ hw⟩

namespace Agree

theorem symm (h : p.Agree S P q) : q.Agree S P p := by
  obtain ⟨r, hr, hp, hq⟩ := h
  exact ⟨r, hr, hq, hp⟩

theorem trans (h : p.Agree S P q) (h' : q.Agree S P s) : p.Agree S P s := by
  obtain ⟨r, hr, hp, hq⟩ := h
  obtain ⟨r', hr', hq', hs⟩ := h'
  rcases hq.unique hq' with rfl | hany
  · exact ⟨r, hr, hp, hs⟩
  · exact ⟨r, hr, hp, hany s r⟩

instance : Trans (Prog.Agree S P) (Prog.Agree S P) (Prog.Agree S P) := ⟨trans⟩

theorem left (h : p.Agree S P q) : p.Agree S P p := h.trans h.symm

theorem right (h : p.Agree S P q) : q.Agree S P q := h.symm.trans h

theorem pure {a : Value} (ha : P a) : (Pure.pure a : Prog Value).Agree S P (Pure.pure a) :=
  ⟨.ok a, fun _ h => Except.ok.inj h ▸ ha, .pure a, .pure a⟩

theorem bind {k l : Value → Prog Value} (h : p.Agree S P q)
    (hk : ∀ a, P a → (k a).Agree S Q (l a)) : (p >>= k).Agree S Q (q >>= l) := by
  obtain ⟨r, hr, hp, hq⟩ := h
  cases r with
  | ok a =>
    obtain ⟨r', hr', hk, hl⟩ := hk a (hr a rfl)
    exact ⟨r', hr', hp.bind hk, hq.bind hl⟩
  | error e => exact ⟨.error e, nofun, hp.fault, hq.fault⟩

/-- What is held does not matter. -/
theorem holding (g g' : Holding) (h : p.Agree S P q) :
    (Prog.holding g p).Agree S P (Prog.holding g' q) := by
  obtain ⟨r, hr, hp, hq⟩ := h
  exact ⟨r, hr, hp.holding g, hq.holding g'⟩

theorem holding_left (g : Holding) (h : p.Agree S P q) : (Prog.holding g p).Agree S P q := by
  obtain ⟨r, hr, hp, hq⟩ := h
  exact ⟨r, hr, hp.holding g, hq⟩

/-- To go on with what computes the result again is to do nothing more. -/
theorem bind_result {k : Value → Prog Value} (h : p.Agree S P q)
    (hk : ∀ a, P a → (k a).Agree S P (Pure.pure a)) : (p >>= k).Agree S P q := by
  have hbind : (p >>= k).Agree S P (q >>= Pure.pure) := h.bind hk
  rwa [bind_pure] at hbind

end Agree

end Prog

/-- The callbacks compute the same on the arguments with a property. -/
def Closure.Agree (S : Setting) (P Q : Value → Prop) (f g : Callback) : Prop :=
  ∀ v, P v → (f.code v).Agree S Q (g.code v)

namespace Closure.Agree

variable {f g : Callback}

theorem left (h : f.Agree S P Q g) : f.Agree S P Q f := fun v hv => (h v hv).left

theorem right (h : f.Agree S P Q g) : g.Agree S P Q g := fun v hv => (h v hv).right

end Closure.Agree

/-! ## Laws -/

/-- Types of values, and for each of them the type of the effect values with such results. -/
structure Typing where
  Ty : Type
  Has : Ty → Value → Prop
  effect : Ty → Ty

/-- The effect values with results of a type. -/
def Typing.Effect (T : Typing) (A : T.Ty) : Value → Prop := T.Has (T.effect A)

variable {T : Typing} {A B C : T.Ty}

section

variable (S T) (pure join : Value → Prog Value) (bind map : Value → Callback → Prog Value)

/-- The monad laws of `pure` and `bind`. On callbacks that compute the same, `bind` computes the
same. -/
structure BindLaws : Prop where
  pure_agree : ∀ {A v}, T.Has A v → (pure v).Agree S (T.Effect A) (pure v)
  bind_agree : ∀ {A B a f g}, T.Effect A a → f.Agree S (T.Has A) (T.Effect B) g →
    (bind a f).Agree S (T.Effect B) (bind a g)
  left : ∀ {A B v f}, T.Has A v → f.Agree S (T.Has A) (T.Effect B) f →
    Prog.Agree S (T.Effect B) (do bind (← pure v) f) (f.code v)
  right : ∀ {A a} holds, T.Effect A a →
    (bind a ⟨pure, holds⟩).Agree S (T.Effect A) (Pure.pure a)
  assoc : ∀ {A B C a f g} holds, T.Effect A a → f.Agree S (T.Has A) (T.Effect B) f →
    g.Agree S (T.Has B) (T.Effect C) g →
    Prog.Agree S (T.Effect C) (do bind (← bind a f) g)
      (bind a ⟨fun v => do bind (← f.code v) g, holds⟩)

/-- To map is to continue with `pure`. -/
def Maps : Prop :=
  ∀ {A B a f}, T.Effect A a → f.Agree S (T.Has A) (T.Has B) f →
    (map a f).Agree S (T.Effect B) (bind a (f.map fun code v => do pure (← code v)))

/-- The functor laws. On callbacks that compute the same, `map` computes the same. -/
structure MapLaws : Prop where
  map_agree : ∀ {A B a f g}, T.Effect A a → f.Agree S (T.Has A) (T.Has B) g →
    (map a f).Agree S (T.Effect B) (map a g)
  id : ∀ {A a} holds, T.Effect A a →
    (map a ⟨Pure.pure, holds⟩).Agree S (T.Effect A) (Pure.pure a)
  comp : ∀ {A B C a f g} holds, T.Effect A a → f.Agree S (T.Has A) (T.Has B) f →
    g.Agree S (T.Has B) (T.Has C) g →
    Prog.Agree S (T.Effect C) (do map (← map a f) g)
      (map a ⟨fun v => do g.code (← f.code v), holds⟩)

/-- The laws of `join`. -/
structure JoinLaws : Prop where
  join_agree : ∀ {A m}, T.Effect (T.effect A) m → (join m).Agree S (T.Effect A) (join m)
  join_pure : ∀ {A m}, T.Effect A m →
    Prog.Agree S (T.Effect A) (do join (← pure m)) (Pure.pure m)
  join_map_pure : ∀ {A a} holds, T.Effect A a →
    Prog.Agree S (T.Effect A) (do join (← map a ⟨pure, holds⟩)) (Pure.pure a)
  join_join : ∀ {A m} holds, T.Effect (T.effect (T.effect A)) m →
    Prog.Agree S (T.Effect A) (do join (← join m)) (do join (← map m ⟨join, holds⟩))

/-- Mapping after `pure` and after `join`. -/
structure NaturalLaws : Prop where
  pure_agree : ∀ {A v}, T.Has A v → (pure v).Agree S (T.Effect A) (pure v)
  map_pure : ∀ {A B v f}, T.Has A v → f.Agree S (T.Has A) (T.Has B) f →
    Prog.Agree S (T.Effect B) (do map (← pure v) f) (do pure (← f.code v))
  map_join : ∀ {A B m f} holds, T.Effect (T.effect A) m → f.Agree S (T.Has A) (T.Has B) f →
    Prog.Agree S (T.Effect B) (do join (← map m ⟨fun a => map a f, holds⟩))
      (do map (← join m) f)

end

section

variable {pure join : Value → Prog Value} {bind map : Value → Callback → Prog Value}

/-! ## From `bind` to `map` and `join` -/

namespace BindLaws

variable (h : BindLaws S T pure bind)

include h

/-- To go on with `pure` after a callback. -/
theorem pure_after {f g : Callback} (hfg : f.Agree S (T.Has A) (T.Has B) g)
    (holds holds' : Holding) :
    Closure.Agree S (T.Has A) (T.Effect B) ⟨fun v => do pure (← f.code v), holds⟩
      ⟨fun v => do pure (← g.code v), holds'⟩ :=
  fun v hv => (hfg v hv).bind fun _ hb => h.pure_agree hb

/-- A `map` that continues with `pure` is a functor's. -/
theorem mapLaws (hmap : Maps S T pure bind map) : MapLaws S T map where
  map_agree ha hfg :=
    ((hmap ha hfg.left).trans (h.bind_agree ha (h.pure_after hfg _ _))).trans
      (hmap ha hfg.right).symm
  id holds ha := (hmap (f := ⟨Pure.pure, holds⟩) ha fun _ hv => .pure hv).trans (h.right holds ha)
  comp {A B C a f g} holds ha hf hg := by
    let f' : Callback := f.map fun code v => do pure (← code v)
    let g' : Callback := g.map fun code v => do pure (← code v)
    let both : Callback := ⟨fun v => do g.code (← f.code v), holds⟩
    have hf' : f'.Agree S (T.Has A) (T.Effect B) f' := h.pure_after hf _ _
    have hg' : g'.Agree S (T.Has B) (T.Effect C) g' := h.pure_after hg _ _
    have hboth : both.Agree S (T.Has A) (T.Has C) both := fun v hv => (hf v hv).bind hg
    calc
      Prog.Agree S (T.Effect C) (do map (← map a f) g) (do bind (← bind a f') g') :=
        (hmap ha hf).bind fun m hm => hmap hm hg
      Prog.Agree S (T.Effect C) _ (bind a ⟨fun v => do bind (← f'.code v) g', holds⟩) :=
        h.assoc holds ha hf' hg'
      Prog.Agree S (T.Effect C) _ (bind a (both.map fun code v => do pure (← code v))) := by
        refine h.bind_agree ha fun v hv => ?_
        simp only [f', both, Closure.code_map, bind_assoc]
        exact (hf v hv).bind fun u hu => h.left hu hg'
      Prog.Agree S (T.Effect C) _ (map a both) := (hmap ha hboth).symm

/-- To go on with the results, which are effect values. -/
theorem bind_done {m : Value} (hm : T.Effect (T.effect A) m) :
    (bind m { code := Pure.pure }).Agree S (T.Effect A) (bind m { code := Pure.pure }) :=
  h.bind_agree hm fun _ hv => .pure hv

/-- To lift an effect value and to go on with it is to do nothing. -/
theorem pure_done {m : Value} (hm : T.Effect A m) :
    Prog.Agree S (T.Effect A) (do bind (← pure m) { code := Pure.pure }) (Pure.pure m) :=
  h.left (f := { code := Pure.pure }) hm fun _ hv => .pure hv

/-- To go on with `pure` after a callback of effect values, and then with the results. -/
theorem pure_after_done {a : Value} {f : Callback} (holds holds' : Holding) (ha : T.Effect A a)
    (hf : f.Agree S (T.Has A) (T.Effect B) f) :
    Prog.Agree S (T.Effect B)
      (do bind (← bind a ⟨fun v => do pure (← f.code v), holds⟩) { code := Pure.pure })
      (bind a ⟨f.code, holds'⟩) := by
  refine (h.assoc holds ha (h.pure_after hf _ _) fun _ hv => .pure hv).trans
    (h.bind_agree ha fun v hv => ?_)
  simp only [bind_assoc]
  exact (hf v hv).bind_result fun u hu => h.pure_done hu

/-- A `join` that continues with the results obeys its laws. -/
theorem joinLaws (hmap : Maps S T pure bind map)
    (hjoin : join = fun m => bind m { code := Pure.pure }) : JoinLaws S T pure join map where
  join_agree hm := by
    subst hjoin
    exact h.bind_done hm
  join_pure hm := by
    subst hjoin
    exact h.pure_done hm
  join_map_pure {A a} holds ha := by
    subst hjoin
    have hpure : Closure.Agree S (T.Has A) (T.Effect A) ⟨pure, holds⟩ ⟨pure, holds⟩ :=
      fun v hv => h.pure_agree hv
    calc
      Prog.Agree S (T.Effect A) (do bind (← map a ⟨pure, holds⟩) { code := Pure.pure })
          (do bind (← bind a ⟨fun v => do pure (← pure v), holds⟩) { code := Pure.pure }) :=
        (hmap ha hpure).bind fun m hm => h.bind_done hm
      Prog.Agree S (T.Effect A) _ (bind a ⟨pure, holds⟩) := h.pure_after_done holds holds ha hpure
      Prog.Agree S (T.Effect A) _ (Pure.pure a) := h.right holds ha
  join_join {A m} holds hm := by
    subst hjoin
    let join : Callback := ⟨fun v => bind v { code := Pure.pure }, holds⟩
    let after : Callback := join.map fun code v => do pure (← code v)
    have hjoin : join.Agree S (T.Effect (T.effect A)) (T.Effect A) join :=
      fun v hv => h.bind_done hv
    -- Both sides join the results first.
    calc
      Prog.Agree S (T.Effect A)
          (do bind (← bind m { code := Pure.pure }) { code := Pure.pure }) (bind m join) :=
        h.assoc (B := T.effect A) (f := { code := Pure.pure }) holds hm (fun _ hv => .pure hv)
          fun _ hv => .pure hv
      Prog.Agree S (T.Effect A) _
          (do bind (← bind m after) { code := Pure.pure }) :=
        (h.pure_after_done holds holds hm hjoin).symm
      Prog.Agree S (T.Effect A) _ (do bind (← map m join) { code := Pure.pure }) :=
        ((hmap hm hjoin).bind fun m hm => h.bind_done hm).symm

end BindLaws

/-! ## From `map` and `join` to `bind` -/

section

variable (hmap : MapLaws S T map) (hjoin : JoinLaws S T pure join map)

include hmap hjoin

/-- To map and to join, twice, is to do so once with what does it for each result. -/
theorem JoinLaws.bind_bind (hnatural : NaturalLaws S T pure join map) {a : Value}
    {f g : Callback} (holds : Holding) (ha : T.Effect A a)
    (hf : f.Agree S (T.Has A) (T.Effect B) f) (hg : g.Agree S (T.Has B) (T.Effect C) g) :
    Prog.Agree S (T.Effect C) (do join (← map (← do join (← map a f)) g))
      (do join (← map a ⟨fun v => do join (← map (← f.code v) g), holds⟩)) := by
  let mapped : Callback := ⟨fun m => map m g, holds⟩
  let both : Callback := ⟨fun v => do map (← f.code v) g, holds⟩
  have hmapped : mapped.Agree S (T.Effect B) (T.Effect (T.effect C)) mapped :=
    fun m hm => hmap.map_agree hm hg
  have hboth : both.Agree S (T.Has A) (T.Effect (T.effect C)) both :=
    fun v hv => (hf v hv).bind fun m hm => hmap.map_agree hm hg
  have hjoined : Closure.Agree S (T.Effect (T.effect C)) (T.Effect C) ⟨join, holds⟩
      ⟨join, holds⟩ := fun m hm => hjoin.join_agree hm
  calc
    Prog.Agree S (T.Effect C) (do let mm ← map a f; let m ← join mm; join (← map m g))
        (do let mm ← map a f; join (← join (← map mm mapped))) := by
      refine (hmap.map_agree ha hf).bind fun mm hmm => ?_
      have hstep := (hnatural.map_join holds hmm hg).symm.bind fun m hm => hjoin.join_agree hm
      rwa [bind_assoc, bind_assoc] at hstep
    Prog.Agree S (T.Effect C) _ (do let mmm ← map a both; join (← join mmm)) := by
      have hstep := (hmap.comp (B := T.effect B) holds ha hf hmapped).bind fun m hm =>
        (hjoin.join_agree hm).bind fun m hm => hjoin.join_agree hm
      rwa [bind_assoc] at hstep
    Prog.Agree S (T.Effect C) _ (do let mmm ← map a both; join (← map mmm ⟨join, holds⟩)) :=
      (hmap.map_agree ha hboth).bind fun m hm => hjoin.join_join holds hm
    Prog.Agree S (T.Effect C) _
        (do join (← map a ⟨fun v => do join (← map (← f.code v) g), holds⟩)) := by
      have hstep := (hmap.comp holds ha hboth hjoined).bind fun m hm => hjoin.join_agree hm
      simpa only [both, bind_assoc] using hstep

/-- A `bind` that maps and joins is a monad's. -/
theorem BindLaws.of_join (hnatural : NaturalLaws S T pure join map)
    (hbind : bind = fun a f => do join (← map a f)) : BindLaws S T pure bind where
  pure_agree := hnatural.pure_agree
  bind_agree ha hfg := by
    subst hbind
    exact (hmap.map_agree ha hfg).bind fun _ => hjoin.join_agree
  left {A B v f} hv hf := by
    subst hbind
    have hpure := (hnatural.map_pure hv hf).bind fun m hm => hjoin.join_agree hm
    rw [bind_assoc, bind_assoc] at hpure
    exact hpure.trans ((hf v hv).bind_result fun m hm => hjoin.join_pure hm)
  right holds ha := by
    subst hbind
    exact hjoin.join_map_pure holds ha
  assoc holds ha hf hg := by
    subst hbind
    simpa only [bind_assoc] using hjoin.bind_bind hmap hnatural holds ha hf hg

theorem Maps.of_join (hnatural : NaturalLaws S T pure join map) :
    Maps S T pure (fun a f => do join (← map a f)) map := by
  intro A B a f ha hf
  have hpure : Closure.Agree S (T.Has B) (T.Effect B) ⟨pure, f.holds⟩ ⟨pure, f.holds⟩ :=
    fun v hv => hnatural.pure_agree hv
  have hcomp := (hmap.comp f.holds ha hf hpure).bind fun m hm => hjoin.join_agree hm
  rw [bind_assoc] at hcomp
  exact ((hmap.map_agree ha hf).bind_result fun m hm => hjoin.join_map_pure f.holds hm).symm.trans
    hcomp

end

end

/-! ## Under a context layer -/

/-- With a definition installed that is in use, a callback computes the same. -/
theorem Closure.Agree.installed {f : Callback} {a : Installer} (ha : S.Installs (some a))
    (h : f.Agree S P Q f) : (a.callback f).Agree S P Q f := by
  intro v hv
  obtain ⟨r, hr, hp, -⟩ := h v hv
  exact ⟨r, hr, hp.under ha, hp⟩

section

variable {pure : Value → Prog Value} {bind bind' map : Value → Callback → Prog Value}

/-- Each `bind` computes what the other one does. -/
def SameBind (S : Setting) (T : Typing) (bind bind' : Value → Callback → Prog Value) : Prop :=
  ∀ {A B a f}, T.Effect A a → f.Agree S (T.Has A) (T.Effect B) f →
    (bind' a f).Agree S (T.Effect B) (bind a f)

theorem BindLaws.congr (h : BindLaws S T pure bind) (hbind : SameBind S T bind bind') :
    BindLaws S T pure bind' where
  pure_agree := h.pure_agree
  bind_agree ha hfg :=
    ((hbind ha hfg.left).trans (h.bind_agree ha hfg)).trans (hbind ha hfg.right).symm
  left hv hf := ((h.pure_agree hv).bind fun _ hm => hbind hm hf).trans (h.left hv hf)
  right holds ha := (hbind ha fun _ hv => h.pure_agree hv).trans (h.right holds ha)
  assoc {A B C a f g} holds ha hf hg := by
    have hgo (m : Value) (hm : T.Effect B m) := hbind hm hg
    have hf' : Closure.Agree S (T.Has A) (T.Effect C) ⟨fun v => do bind' (← f.code v) g, holds⟩
        ⟨fun v => do bind (← f.code v) g, holds⟩ := fun v hv => (hf v hv).bind hgo
    calc
      Prog.Agree S (T.Effect C) (do bind' (← bind' a f) g) (do bind (← bind a f) g) :=
        (hbind ha hf).bind hgo
      Prog.Agree S (T.Effect C) _ (bind a ⟨fun v => do bind (← f.code v) g, holds⟩) :=
        h.assoc holds ha hf hg
      Prog.Agree S (T.Effect C) _ (bind a ⟨fun v => do bind' (← f.code v) g, holds⟩) :=
        (h.bind_agree ha hf').symm
      Prog.Agree S (T.Effect C) _ (bind' a ⟨fun v => do bind' (← f.code v) g, holds⟩) :=
        (hbind ha hf'.left).symm

theorem Maps.congr (h : Maps S T pure bind map) (hlaws : BindLaws S T pure bind)
    (hbind : SameBind S T bind bind') : Maps S T pure bind' map :=
  fun ha hf => (h ha hf).trans (hbind ha (hlaws.pure_after hf _ _)).symm

end

/-! ## What a seed derives -/

namespace Seed

variable {s : Seed} {id : DefId} {d : Definition}

theorem map_derived (hd : s.definition? id = some d) (hmap : s.ops .map = none) :
    d.table .map =
      fun a f => d.table .bind a (f.map fun code v => do d.table .pure (← code v)) := by
  obtain ⟨lift, hlift, rfl⟩ := Option.map_eq_some_iff.mp hd
  simp only [table, map, hmap, Option.getD_none]

theorem join_derived (hd : s.definition? id = some d) (hjoin : s.ops .join = none) :
    d.table .join = fun m => d.table .bind m { code := Pure.pure } := by
  obtain ⟨lift, hlift, rfl⟩ := Option.map_eq_some_iff.mp hd
  simp only [table, join, hjoin, Option.getD_none]

theorem bind_derived (hd : s.definition? id = some d) {join : Value → Prog Value}
    {map : Value → Callback → Prog Value} (hbind : s.ops .bind = none)
    (hjoin : s.ops .join = some join) (hmap : s.ops .map = some map) :
    d.table .bind = fun a f => (do join (← map a f) : Prog Value) := by
  obtain ⟨lift, hlift, rfl⟩ := Option.map_eq_some_iff.mp hd
  simp only [table, bind, hbind, hjoin, hmap]

end Seed

/-- One definition has the monad of another one, apart from what is installed around callbacks. -/
structure Definition.SameMonad (S : Setting) (T : Typing) (inner d : Definition) : Prop where
  map : d.table .map = inner.table .map
  bind : SameBind S T (inner.table .bind) (d.table .bind)
  join : d.table .join = inner.table .join ∨
    d.table .join = fun m => d.table .bind m { code := Pure.pure }

namespace Definition.SameMonad

variable {inner d : Definition}

theorem refl (h : BindLaws S T (d.table .pure) (d.table .bind)) : d.SameMonad S T d where
  map := rfl
  bind ha hf := h.bind_agree ha hf
  join := .inl rfl

/-- A context layer has the monad beneath it, if its definition is in use. -/
theorem of_context {mode : ContextMode} {id : DefId}
    (h : BindLaws S T (inner.table .pure) (inner.table .bind))
    (hd : (inner.contextSeed mode id).definition? id = some d) (hknown : d.KnownIn S.catalog)
    (hhost : S.Hosts d.id) : inner.SameMonad S T d where
  map := (Seed.table_of_definition? hd (by cases mode <;> rfl)).2
  bind {A B a f} ha hf := by
    have hinstalls : S.Installs (some ⟨inner.name ++ "+context", id⟩) := by
      rintro _ ⟨⟩
      rw [← Seed.id_of_definition? hd]
      exact ⟨hhost, mem_lineage hknown⟩
    cases mode with
    | full =>
      rw [Seed.table_given hd .bind rfl]
      exact h.bind_agree ha (hf.installed hinstalls)
    | off | runOnly =>
      rw [Seed.table_given hd .bind rfl]
      exact h.bind_agree ha hf
  join := .inr (Seed.join_derived hd (by cases mode <;> rfl))

/-- Where `map` and `join` are derived or as good as derived, they are lawful. -/
theorem laws {pure : Value → Prog Value} {bind : Value → Callback → Prog Value}
    (h : inner.SameMonad S T d) (hlaws : BindLaws S T pure bind)
    (hbind : inner.table .bind = bind) (hmap : Maps S T pure bind (inner.table .map))
    (hjoin : inner.table .join = fun m => bind m { code := Pure.pure }) :
    JoinLaws S T pure (d.table .join) (d.table .map) := by
  subst hbind
  rw [h.map]
  rcases h.join with hkept | hderived
  · exact hlaws.joinLaws hmap (hkept.trans hjoin)
  · exact (hlaws.congr h.bind).joinLaws (hmap.congr hlaws h.bind) hderived

end Definition.SameMonad

namespace Seed

variable {s : Seed} {pure : Value → Prog Value}

/-- A seed with `pure` is completed: it is assembled, and a context may be put back on top. -/
theorem exists_complete (hpure : s.ops .pure = some pure) (c : Catalog) :
    ∃ d c₁ inner, s.complete c = (.ok d, c₁) ∧ (∃ id, s.definition? id = some inner) ∧
      (d = inner ∨
        s.reinstall ≠ none ∧ ∃ mode id, (inner.contextSeed mode id).definition? id = some d) := by
  obtain ⟨inner, c₀, hassemble, -, hinner⟩ : Assembly.Yields s.assemble c fun inner _ =>
      ∃ id, s.definition? id = some inner :=
    yields_assemble (Option.isSome_iff_exists.mpr ⟨pure, hpure⟩) fun d id hd _ => ⟨id, hd⟩
  simp only [complete, Assembly.bind_of_ok _ hassemble]
  cases s.reinstall with
  | none => exact ⟨inner, c₀, inner, rfl, hinner, .inl rfl⟩
  | some r =>
    obtain ⟨mode, brand⟩ := r
    cases mode with
    | off => cases brand <;> exact ⟨inner, _, inner, rfl, hinner, .inl rfl⟩
    | runOnly =>
      cases brand <;> exact ⟨_, _, inner, rfl, hinner, .inr ⟨nofun, .runOnly, c₀.nextId, rfl⟩⟩
    | full =>
      cases brand <;> exact ⟨_, _, inner, rfl, hinner, .inr ⟨nofun, .full, c₀.nextId, rfl⟩⟩

/-- A monad may be given by `bind` or by `map` and `join`. -/
theorem derives_monad (hpure : s.ops .pure = some pure) (c : Catalog) :
    ∃ d c₁, s.complete c = (.ok d, c₁) ∧ d.table .pure = pure ∧
      ∀ S T, (s.reinstall ≠ none → d.KnownIn S.catalog ∧ S.Hosts d.id) →
        (∀ bind, s.ops .bind = some bind → BindLaws S T pure bind →
          (∀ map, s.ops .map = some map → Maps S T pure bind map) →
          MapLaws S T (d.table .map) ∧
          (s.ops .join = none → JoinLaws S T pure (d.table .join) (d.table .map))) ∧
        ∀ join map, s.ops .bind = none → s.ops .join = some join → s.ops .map = some map →
          MapLaws S T map → NaturalLaws S T pure join map → JoinLaws S T pure join map →
          BindLaws S T pure (d.table .bind) ∧ Maps S T pure (d.table .bind) (d.table .map) := by
  obtain ⟨d, c₁, inner, hcomplete, ⟨id, hinner⟩, htop⟩ := exists_complete hpure c
  have hpure' : inner.table .pure = pure := (table_of_definition? hinner hpure).2
  refine ⟨d, c₁, hcomplete, ?_, fun S T hused => ?_⟩
  · rcases htop with rfl | ⟨-, mode, id, hd⟩
    · exact hpure'
    · exact (table_of_definition? hd (by cases mode <;> rfl)).2.trans hpure'
  have hsame (h : BindLaws S T pure (inner.table .bind)) : inner.SameMonad S T d := by
    rcases htop with rfl | ⟨hreinstall, mode, id, hd⟩
    · exact .refl (hpure'.symm ▸ h)
    · exact .of_context (hpure'.symm ▸ h) hd (hused hreinstall).1 (hused hreinstall).2
  constructor
  · intro bind hbind hlaws hmaps
    have htable : inner.table .bind = bind := (table_of_definition? hinner hbind).2
    have hmap : Maps S T pure bind (inner.table .map) := by
      cases hgiven : s.ops .map with
      | some map =>
        rw [(table_of_definition? hinner hgiven).2]
        exact hmaps map hgiven
      | none =>
        rw [map_derived hinner hgiven, htable, hpure']
        exact fun ha hf => hlaws.bind_agree ha (hlaws.pure_after hf _ _)
    have hsame := hsame (htable.symm ▸ hlaws)
    refine ⟨hsame.map ▸ hlaws.mapLaws hmap, fun hjoin => ?_⟩
    exact hsame.laws hlaws htable hmap (htable ▸ join_derived hinner hjoin)
  · intro join map hbind hjoin hmap hfunctor hnatural hlaws
    have htable := bind_derived hinner hbind hjoin hmap
    have hinnerlaws : BindLaws S T pure (inner.table .bind) :=
      .of_join hfunctor hlaws hnatural htable
    have hsame := hsame hinnerlaws
    refine ⟨hinnerlaws.congr hsame.bind, ?_⟩
    rw [hsame.map, (table_of_definition? hinner hmap).2]
    refine Maps.congr ?_ hinnerlaws hsame.bind
    rw [htable]
    exact Maps.of_join hfunctor hlaws hnatural

end Seed

/-! ## Ready-made effects -/

theorem Value.eq_ctor_of_arg? {a v : Value} {name : String} (h : a.arg? name = some v) :
    a = .ctor name v := by
  unfold arg? at h
  split at h
  case h_1 n arg =>
    split at h
    case isTrue hn => rw [hn, Option.some.inj h]
    case isFalse => cases h
  case h_2 => cases h

namespace Effects

/-- One type, of all values. -/
def allValues : Typing := ⟨Unit, fun _ _ => True, fun _ => ()⟩

/-- Types of values, and of boxes of such. -/
def boxes : Typing := ⟨Value → Prop, fun P v => P v, fun P a => ∃ v, a = .ctor "Box" v ∧ P v⟩

theorem onArgument_agree (name : String) (a : Value) {f g : Callback}
    (hfg : f.Agree S (fun _ => True) (fun _ => True) g) :
    (onArgument name a f).Agree S (fun _ => True) (onArgument name a g) := by
  unfold onArgument
  cases a.arg? name with
  | none => exact .pure trivial
  | some v => exact ((hfg v trivial).holding _ _).holding _ _

/-- What is no `Ok` is left as it is, whatever the continuation. -/
theorem bindLaws_either : BindLaws S allValues (fun v => pure (.ctor "Ok" v))
    (onArgument "Ok") where
  pure_agree _ := .pure trivial
  bind_agree _ hfg := onArgument_agree "Ok" _ hfg
  left {_ _ v f} _ hf := ((hf v trivial).holding_left _).holding_left _
  right {_ a} holds _ := by
    unfold onArgument
    cases ha : a.arg? "Ok" with
    | none => exact .pure trivial
    | some v =>
      rw [Value.eq_ctor_of_arg? ha]
      exact ((Prog.Agree.pure trivial).holding_left _).holding_left _
  assoc {_ _ _ a f g} holds _ hf hg := by
    cases ha : a.arg? "Ok" with
    | none =>
      have hleft (k : Callback) : onArgument "Ok" a k = pure a := by simp only [onArgument, ha]
      rw [hleft, hleft, pure_bind, hleft]
      exact .pure trivial
    | some v =>
      have hcall (k : Callback) : onArgument "Ok" a k = Prog.keeping [a] (k.call v) := by
        simp only [onArgument, ha]
      rw [hcall, hcall]
      have hgo := (hf v trivial).bind fun b _ => onArgument_agree "Ok" b hg
      exact ((((hf v trivial).holding_left _).holding_left _).bind fun b _ =>
        onArgument_agree "Ok" b hg).trans ((hgo.holding_left _).holding_left _).symm

/-- A callback is called, and its result is boxed. -/
def mapBox (a : Value) (f : Callback) : Prog Value := do
  return .ctor "Box" (← f.call (← unbox a))

section

variable {v : Value} {f : Callback} {q : Prog Value}

/-- To map a box is to box what the callback answers. -/
theorem mapBox_agree (h : (f.code v).Agree S P q) :
    (mapBox (.ctor "Box" v) f).Agree S (boxes.effect P) (do return .ctor "Box" (← q)) :=
  (h.holding_left _).bind fun b hb => .pure ⟨b, rfl, hb⟩

theorem mapBox_bind (v : Value) (f : Callback) (k : Value → Prog Value) :
    mapBox (.ctor "Box" v) f >>= k = (do k (.ctor "Box" (← f.call v))) := by
  change (do return Value.ctor "Box" (← f.call v)) >>= k = _
  simp only [bind_assoc, pure_bind]

/-- To map a box and to unbox the result is to call the callback. -/
theorem mapBox_unbox (h : (f.code v).Agree S P q) :
    Prog.Agree S P (do unbox (← mapBox (.ctor "Box" v) f)) q := by
  rw [mapBox_bind]
  exact (h.holding_left _).bind_result fun b hb => .pure hb

end

theorem mapLaws_boxed : MapLaws S boxes mapBox where
  map_agree := by
    rintro A B _ f g ⟨v, rfl, hv⟩ hfg
    exact (mapBox_agree (hfg v hv)).trans (mapBox_agree (hfg v hv).right).symm
  id := by
    rintro A _ holds ⟨v, rfl, hv⟩
    exact mapBox_agree (f := ⟨pure, holds⟩) (.pure hv)
  comp := by
    rintro A B C _ f g holds ⟨v, rfl, hv⟩ hf hg
    have hboth : Prog.Agree S C (do g.code (← f.code v)) (do g.code (← f.code v)) :=
      (hf v hv).bind fun u hu => hg u hu
    have hright := mapBox_agree (f := ⟨fun v => do g.code (← f.code v), holds⟩) hboth
    rw [bind_assoc] at hright
    rw [mapBox_bind]
    exact (((hf v hv).holding_left _).bind fun u hu => mapBox_agree (hg u hu)).trans hright.symm

theorem naturalLaws_boxed : NaturalLaws S boxes (fun v => pure (.ctor "Box" v)) unbox mapBox where
  pure_agree hv := .pure ⟨_, rfl, hv⟩
  map_pure hv hf := mapBox_agree (hf _ hv)
  map_join := by
    rintro A B _ f holds ⟨_, rfl, v, rfl, hv⟩ hf
    exact mapBox_unbox (f := ⟨fun a => mapBox a f, holds⟩) (mapBox_agree (hf v hv)).left

theorem joinLaws_boxed : JoinLaws S boxes (fun v => pure (.ctor "Box" v)) unbox mapBox where
  join_agree := by
    rintro A _ ⟨m, rfl, hm⟩
    exact .pure hm
  join_pure hm := .pure hm
  join_map_pure := by
    rintro A _ holds ⟨v, rfl, hv⟩
    exact mapBox_unbox (f := ⟨fun v => pure (.ctor "Box" v), holds⟩) (.pure ⟨v, rfl, hv⟩)
  join_join := by
    rintro A _ holds ⟨_, rfl, m, rfl, hm⟩
    exact (mapBox_unbox (f := ⟨unbox, holds⟩) (.pure hm)).symm

/-- `either` gives `bind`, of which all values are effect values; boxes give `map` and `join`. -/
theorem derives_monad_either_boxed :
    (∃ d c, either.complete .empty = (.ok d, c) ∧
      MapLaws (.silent c d.id) allValues (d.table .map) ∧
      JoinLaws (.silent c d.id) allValues (d.table .pure) (d.table .join) (d.table .map)) ∧
    ∃ d c, boxed.complete .empty = (.ok d, c) ∧
      BindLaws (.silent c d.id) boxes (d.table .pure) (d.table .bind) := by
  constructor
  · obtain ⟨d, c, hcomplete, hpure, hlaws⟩ := Seed.derives_monad (s := either) rfl .empty
    obtain ⟨hmap, hjoin⟩ :=
      (hlaws (.silent c d.id) allValues (absurd rfl)).1 _ rfl bindLaws_either nofun
    exact ⟨d, c, hcomplete, hmap, hpure ▸ hjoin rfl⟩
  · obtain ⟨d, c, hcomplete, hpure, hlaws⟩ := Seed.derives_monad (s := boxed) rfl .empty
    have hbind := ((hlaws (.silent c d.id) boxes (absurd rfl)).2 _ _ rfl rfl rfl mapLaws_boxed
      naturalLaws_boxed joinLaws_boxed).1
    exact ⟨d, c, hcomplete, hpure ▸ hbind⟩

end Effects

end EffectLayers
