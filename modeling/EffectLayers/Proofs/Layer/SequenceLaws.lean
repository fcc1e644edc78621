import EffectLayers.Proofs.Layer.DerivedMonad
import Mathlib.Data.List.Basic

/-!
# Laws of sequencing

The laws of `pure` and `bind` on callbacks that give an effect value for every value that they are
for. They say what is computed, up to a fault for effect values on which `bind` faults, and without
one for all others.

## Main definitions

* `Prog.Equal`, `Closure.Equal`: what computes the same without a fault.
* `SequenceLaws`, `Unfailing`: the laws, and the effect values that `bind` does not fault on.
* `CollectLaws`: what the laws come to for such effect values.
* `MapsResults`: to map is to continue with `pure`.

## Main statements

* `SequenceLaws.collectLaws`: what is made of effect values on which `bind` does not fault.
* `Effects.sequenceLaws_results`: the laws for lists of results.
-/

namespace EffectLayers

variable {S : Setting} {P Q R : Value → Prop}

/-! ## Computing the same without a fault -/

/-- The program computes a value. -/
def Prog.Succeeds (S : Setting) (p : Prog Value) : Prop := ∃ a, p.Computes S (.ok a)

/-- The programs compute the same value, which has the property. -/
structure Prog.Equal (S : Setting) (P : Value → Prop) (p q : Prog Value) : Prop where
  agree : p.Agree S P q
  succeeds : p.Succeeds S

namespace Prog

variable {p q s : Prog Value}

/-- What agrees with a program that computes a value computes one. -/
theorem Agree.succeeds (h : p.Agree S P q) (hp : p.Succeeds S) : q.Succeeds S := by
  obtain ⟨a, hp⟩ := hp
  obtain ⟨r, -, hp', hq⟩ := h
  rcases hp.unique hp' with rfl | hany
  · exact ⟨a, hq⟩
  · exact ⟨a, hany q _⟩

theorem Agree.imp (h : p.Agree S P q) (hPQ : ∀ a, p.Computes S (.ok a) → P a → Q a) :
    p.Agree S Q q := by
  obtain ⟨r, hr, hp, hq⟩ := h
  exact ⟨r, fun a ha => hPQ a (ha ▸ hp) (hr a ha), hp, hq⟩

/-- What agrees with a program that computes a value with a property computes that. -/
theorem Agree.trans_equal (h : p.Agree S P q) (h' : q.Equal S Q s) : p.Equal S Q s := by
  refine ⟨?_, h.symm.succeeds h'.succeeds⟩
  obtain ⟨r, -, hp, hq⟩ := h
  obtain ⟨r', hr', hq', hs⟩ := h'.agree
  rcases hq.unique hq' with rfl | hany
  · exact ⟨r, hr', hp, hs⟩
  · exact ⟨r', hr', hany p r', hs⟩

/-- Where a sequence computes a value, so does what comes after its first part. -/
theorem Succeeds.of_bind {k : Value → Prog Value} {a : Value} (h : (p >>= k).Succeeds S)
    (hp : p.Computes S (.ok a)) (hk : (k a).Agree S P q) : (k a).Succeeds S := by
  obtain ⟨b, hb⟩ := h
  obtain ⟨r, -, hk, -⟩ := hk
  rcases (hp.bind hk).unique hb with rfl | hany
  · exact ⟨b, hk⟩
  · exact ⟨b, hany _ _⟩

namespace Equal

theorem symm (h : p.Equal S P q) : q.Equal S P p := ⟨h.agree.symm, h.agree.succeeds h.succeeds⟩

theorem trans (h : p.Equal S P q) (h' : q.Equal S P s) : p.Equal S P s :=
  ⟨h.agree.trans h'.agree, h.succeeds⟩

instance : Trans (Prog.Equal S P) (Prog.Equal S P) (Prog.Equal S P) := ⟨trans⟩

theorem left (h : p.Equal S P q) : p.Equal S P p := h.trans h.symm

theorem right (h : p.Equal S P q) : q.Equal S P q := h.symm.trans h

theorem computes {r : Except Fault Value} (h : p.Equal S P q) (hq : q.Computes S r) :
    p.Computes S r := by
  obtain ⟨r', -, hp, hq'⟩ := h.agree
  rcases hq.unique hq' with rfl | hany
  · exact hp
  · exact hany p r

theorem of_computes_both {a : Value} (ha : P a) (hp : p.Computes S (.ok a))
    (hq : q.Computes S (.ok a)) : p.Equal S P q :=
  ⟨⟨.ok a, fun _ h => Except.ok.inj h ▸ ha, hp, hq⟩, a, hp⟩

theorem pure {a : Value} (ha : P a) : (Pure.pure a : Prog Value).Equal S P (Pure.pure a) :=
  of_computes_both ha (.pure a) (.pure a)

theorem mono (h : p.Equal S P q) (hPQ : ∀ a, P a → Q a) : p.Equal S Q q := by
  obtain ⟨⟨r, hr, hp, hq⟩, hsucceeds⟩ := h
  exact ⟨⟨r, fun a ha => hPQ a (hr a ha), hp, hq⟩, hsucceeds⟩

theorem bind {k l : Value → Prog Value} (h : p.Equal S P q)
    (hk : ∀ a, P a → (k a).Equal S Q (l a)) : (p >>= k).Equal S Q (q >>= l) := by
  refine ⟨h.agree.bind fun a ha => (hk a ha).agree, ?_⟩
  obtain ⟨a, hp⟩ := h.succeeds
  obtain ⟨r, hr, hp', -⟩ := h.agree
  rcases hp.unique hp' with rfl | hany
  · obtain ⟨b, hb⟩ := (hk a (hr a rfl)).succeeds
    exact ⟨b, hp.bind hb⟩
  · exact ⟨a, hany _ _⟩

/-- What is held does not matter. -/
theorem holding_left (g : Holding) (h : p.Equal S P q) : (Prog.holding g p).Equal S P q := by
  obtain ⟨a, hp⟩ := h.succeeds
  exact ⟨h.agree.holding_left g, a, hp.holding g⟩

/-- To go on with a value that is computed already. -/
theorem of_computes {k : Value → Prog Value} {a : Value} (hp : p.Computes S (.ok a))
    (hk : (k a).Equal S P q) : (p >>= k).Equal S P q := by
  obtain ⟨⟨r, hr, hk, hq⟩, b, hb⟩ := hk
  exact ⟨⟨r, hr, hp.bind hk, hq⟩, b, hp.bind hb⟩

theorem mem {a : Value} (h : p.Equal S P q) (hp : p.Computes S (.ok a)) :
    P a ∨ ∀ (q : Prog Value) r, q.Computes S r := by
  obtain ⟨r, hr, hp', -⟩ := h.agree
  exact (hp.unique hp').imp_left fun hends => hr a hends.symm

/-- Where there is no world to start from, everything is computed. -/
theorem of_any (h : ∀ (q : Prog Value) r, q.Computes S r) : p.Equal S P q :=
  ⟨⟨.error default, nofun, h p _, h q _⟩, .unit, h p _⟩

/-- To go on with the value that is computed, whichever it is. -/
theorem bind_value {k : Value → Prog Value} (h : p.Equal S P p)
    (hk : ∀ a, P a → p.Computes S (.ok a) → (k a).Equal S Q q) : (p >>= k).Equal S Q q := by
  obtain ⟨⟨r, hr, hp, -⟩, a, ha⟩ := h
  rcases ha.unique hp with rfl | hany
  · exact of_computes ha (hk a (hr a rfl) ha)
  · exact of_any hany

end Equal

end Prog

/-- The callbacks compute the same on the values with a property, and do not fault on them. -/
def Closure.Equal (S : Setting) (P Q : Value → Prop) (f g : Callback) : Prop :=
  ∀ v, P v → (f.code v).Equal S Q (g.code v)

namespace Closure.Equal

variable {f g : Callback}

theorem left (h : f.Equal S P Q g) : f.Equal S P Q f := fun v hv => (h v hv).left

theorem right (h : f.Equal S P Q g) : g.Equal S P Q g := fun v hv => (h v hv).right

theorem mono (h : f.Equal S P Q g) (hQR : ∀ a, Q a → R a) : f.Equal S P R g :=
  fun v hv => (h v hv).mono hQR

/-- With a definition installed that is in use, a callback computes the same. -/
theorem installed {a : Installer} (ha : S.Installs (some a)) (h : f.Equal S P Q f) :
    (a.callback f).Equal S P Q f := by
  intro v hv
  obtain ⟨⟨r, hr, hp, -⟩, b, hb⟩ := h v hv
  exact ⟨⟨r, hr, hp.under ha, hp⟩, b, hb.under ha⟩

end Closure.Equal

/-! ## Laws -/

section

variable (S) (effect : (Value → Prop) → Value → Prop) (pure : Value → Prog Value)
  (bind map : Value → Callback → Prog Value)

/-- The laws of `pure` and `bind` on callbacks that give effect values, where `effect P` are the
effect values with results that have the property `P`. -/
structure SequenceLaws : Prop where
  pure_equal : ∀ {P v}, P v → (pure v).Equal S (effect P) (pure v)
  bind_agree : ∀ {P Q a f g}, effect P a → f.Equal S P (effect Q) g →
    (bind a f).Agree S (effect Q) (bind a g)
  left : ∀ {P Q v f}, P v → f.Equal S P (effect Q) f →
    Prog.Agree S (effect Q) (do bind (← pure v) f) (f.code v)
  assoc : ∀ {P Q R a f g} holds, effect P a → f.Equal S P (effect Q) f →
    g.Equal S Q (effect R) g →
    Prog.Agree S (effect R) (do bind (← bind a f) g)
      (bind a ⟨fun v => do bind (← f.code v) g, holds⟩)

/-- Effect values on which `bind` does not fault. -/
structure Unfailing (P : Value → Prop) (a : Value) : Prop where
  mem : effect P a
  succeeds : ∀ {Q f}, f.Equal S P (effect Q) f → (bind a f).Succeeds S

/-- The laws for effect values on which `bind` does not fault; the left identity for lists only,
and no right identity. -/
structure CollectLaws : Prop where
  pure_equal : ∀ {P v}, P v → (pure v).Equal S (effect P) (pure v)
  bind_equal : ∀ {P Q a f g}, effect P a → f.Equal S P (effect Q) g →
    (bind a f).Equal S (effect Q) (bind a g)
  left : ∀ {P Q vs f}, P (.list vs) → f.Equal S P (effect Q) f →
    Prog.Equal S (effect Q) (do bind (← pure (.list vs)) f) (f.code (.list vs))
  assoc : ∀ {P Q R a f g} holds, effect P a → f.Equal S P (effect Q) f →
    g.Equal S Q (effect R) g →
    Prog.Equal S (effect R) (do bind (← bind a f) g)
      (bind a ⟨fun v => do bind (← f.code v) g, holds⟩)

/-- To map a callback that does not fault is to continue with `pure`. -/
structure MapsResults : Prop where
  map_equal : ∀ {P Q a f}, effect P a → f.Equal S P Q f →
    (map a f).Equal S (effect Q) (bind a (f.map fun code v => do pure (← code v)))

end

section

variable {effect : (Value → Prop) → Value → Prop} {pure : Value → Prog Value}
  {bind bind' map : Value → Callback → Prog Value}

namespace SequenceLaws

variable (h : SequenceLaws S effect pure bind)

include h

theorem pure_unfailing {v : Value} (hv : P v) :
    (pure v).Equal S (Unfailing S effect bind P) (pure v) := by
  refine ⟨(h.pure_equal hv).agree.imp fun a ha hmem => ⟨hmem, fun {Q f} hf => ?_⟩,
    (h.pure_equal hv).succeeds⟩
  have hleft := (h.left hv hf).symm.succeeds (hf v hv).succeeds
  exact hleft.of_bind ha (h.bind_agree hmem hf)

theorem bind_unfailing {a : Value} {f g : Callback} (ha : Unfailing S effect bind P a)
    (hfg : f.Equal S P (Unfailing S effect bind Q) g) :
    (bind a f).Equal S (Unfailing S effect bind Q) (bind a g) := by
  have hf : f.Equal S P (effect Q) f := hfg.left.mono fun _ hb => hb.mem
  have hagree := h.bind_agree ha.mem (hfg.mono fun _ hb => hb.mem)
  refine ⟨hagree.imp fun b hb hmem => ⟨hmem, fun {R k} hk => ?_⟩, ha.succeeds hf⟩
  -- To go on after `bind` is to go on in the continuation.
  have hchain : Closure.Equal S P (effect R) ⟨fun v => do bind (← f.code v) k, {}⟩
      ⟨fun v => do bind (← f.code v) k, {}⟩ :=
    fun v hv => (hfg.left v hv).bind fun c hc => ⟨h.bind_agree hc.mem hk, hc.succeeds hk⟩
  have hassoc := (h.assoc {} ha.mem hf hk).symm.succeeds (ha.succeeds hchain)
  exact hassoc.of_bind hb (h.bind_agree hmem hk)

theorem left_unfailing {v : Value} {f : Callback} (hv : P v)
    (hf : f.Equal S P (Unfailing S effect bind Q) f) :
    Prog.Equal S (Unfailing S effect bind Q) (do bind (← pure v) f) (f.code v) :=
  (h.left hv (hf.mono fun _ hb => hb.mem)).trans_equal (hf v hv)

/-- What is made of effect values on which `bind` does not fault is such an effect value. -/
theorem collectLaws : CollectLaws S (Unfailing S effect bind) pure bind where
  pure_equal hv := h.pure_unfailing hv
  bind_equal ha hfg := h.bind_unfailing ha hfg
  left hv hf := h.left_unfailing hv hf
  assoc {P Q R a f g} holds ha hf hg := by
    have hassoc := h.assoc holds ha.mem (hf.mono fun _ hb => hb.mem) (hg.mono fun _ hb => hb.mem)
    have hchain : Closure.Equal S P (Unfailing S effect bind R)
        ⟨fun v => do bind (← f.code v) g, holds⟩ ⟨fun v => do bind (← f.code v) g, holds⟩ :=
      fun v hv => (hf v hv).bind fun b hb => h.bind_unfailing hb hg
    exact hassoc.trans_equal (h.bind_unfailing ha hchain)

end SequenceLaws

namespace CollectLaws

/-- A `bind` that computes the same obeys the laws. -/
theorem congr (h : CollectLaws S effect pure bind)
    (hbind : ∀ {P Q a f}, effect P a → f.Equal S P (effect Q) f →
      (bind' a f).Equal S (effect Q) (bind a f)) : CollectLaws S effect pure bind' where
  pure_equal := h.pure_equal
  bind_equal ha hfg :=
    ((hbind ha hfg.left).trans (h.bind_equal ha hfg)).trans (hbind ha hfg.right).symm
  left hv hf := ((h.pure_equal hv).bind fun _ hm => hbind hm hf).trans (h.left hv hf)
  assoc {P Q R a f g} holds ha hf hg := by
    have hgo (m : Value) (hm : effect Q m) := hbind hm hg
    have hchain : Closure.Equal S P (effect R) ⟨fun v => do bind' (← f.code v) g, holds⟩
        ⟨fun v => do bind (← f.code v) g, holds⟩ := fun v hv => (hf v hv).bind hgo
    calc
      Prog.Equal S (effect R) (do bind' (← bind' a f) g) (do bind (← bind a f) g) :=
        (hbind ha hf).bind hgo
      Prog.Equal S (effect R) _ (bind a ⟨fun v => do bind (← f.code v) g, holds⟩) :=
        h.assoc holds ha hf hg
      Prog.Equal S (effect R) _ (bind a ⟨fun v => do bind' (← f.code v) g, holds⟩) :=
        (h.bind_equal ha hchain).symm
      Prog.Equal S (effect R) _ (bind' a ⟨fun v => do bind' (← f.code v) g, holds⟩) :=
        (hbind ha hchain.left).symm

/-- Going on with `pure` after a callback, whatever is held meanwhile. -/
theorem pure_after (h : CollectLaws S effect pure bind) {f g : Callback}
    (hfg : f.Equal S P Q g) (holds holds' : Holding) :
    Closure.Equal S P (effect Q) ⟨fun v => do pure (← f.code v), holds⟩
      ⟨fun v => do pure (← g.code v), holds'⟩ :=
  fun v hv => (hfg v hv).bind fun _ hb => h.pure_equal hb

/-- A `map` that continues with `pure`. -/
theorem maps (h : CollectLaws S effect pure bind)
    (hmap : map = fun a f => bind a (f.map fun code v => do pure (← code v))) :
    MapsResults S effect pure bind map := by
  subst hmap
  exact ⟨fun ha hf => h.bind_equal ha (h.pure_after hf _ _)⟩

theorem maps_congr (h : CollectLaws S effect pure bind) (hmap : MapsResults S effect pure bind map)
    (hbind : ∀ {P Q a f}, effect P a → f.Equal S P (effect Q) f →
      (bind' a f).Equal S (effect Q) (bind a f)) : MapsResults S effect pure bind' map :=
  ⟨fun ha hf => (hmap.map_equal ha hf).trans (hbind ha (h.pure_after hf _ _)).symm⟩

end CollectLaws

end

/-! ## Lists of results -/

namespace Effects

/-- Lists of values with the property. -/
def listOf (P : Value → Prop) (a : Value) : Prop := ∃ vs, a = .list vs ∧ ∀ v ∈ vs, P v

/-- The walk over the items, where the callback answers lists for those that are there. -/
theorem computes_bindEach_of_mem {f : Callback} {F : Value → List Value} (vs found : List Value)
    (hf : ∀ v ∈ vs, (f.code v).Computes S (.ok (.list (F v)))) :
    (bindEach f found vs).Computes S (.ok ((vs.flatMap F).reverse ++ found)) := by
  induction vs generalizing found with
  | nil => exact .pure found
  | cons v vs ih =>
    have hcall := (((hf v List.mem_cons_self).holding f.holds).holding { values := vs }).holding
      { values := found }
    have hrest := ih ((F v).reverse ++ found) fun u hu => hf u (List.mem_cons_of_mem v hu)
    rw [List.flatMap_cons, List.reverse_append, List.append_assoc]
    exact hcall.bind hrest

theorem computes_bind_results {f : Callback} {F : Value → List Value} {vs : List Value}
    (hf : ∀ v ∈ vs, (f.code v).Computes S (.ok (.list (F v)))) :
    (results.bind (.list vs) f).Computes S (.ok (.list (vs.flatMap F))) := by
  have heach := computes_bindEach_of_mem vs [] hf
  have hbind : (bindEach f [] vs >>= fun found => pure (Value.list found.reverse)).Computes S
      (.ok (.list ((vs.flatMap F).reverse ++ []).reverse)) := heach.bind (.pure _)
  rwa [List.append_nil, List.reverse_reverse] at hbind

/-- What callbacks that compute the same lists compute. -/
theorem exists_lists {f g : Callback} (h : f.Equal S P (listOf Q) g) :
    ∃ F : Value → List Value, ∀ v, P v → (∀ u ∈ F v, Q u) ∧
      (f.code v).Computes S (.ok (.list (F v))) ∧ (g.code v).Computes S (.ok (.list (F v))) := by
  have hlist (v : Value) : ∃ us : List Value, P v → (∀ u ∈ us, Q u) ∧
      (f.code v).Computes S (.ok (.list us)) ∧ (g.code v).Computes S (.ok (.list us)) := by
    by_cases hv : P v
    case neg => exact ⟨[], fun h => absurd h hv⟩
    obtain ⟨⟨r, hr, hf, hg⟩, a, ha⟩ := h v hv
    rcases ha.unique hf with rfl | hany
    · obtain ⟨us, rfl, hus⟩ := hr a rfl
      exact ⟨us, fun _ => ⟨hus, hf, hg⟩⟩
    · exact ⟨[], fun _ => ⟨nofun, hany _ _, hany _ _⟩⟩
  choose F hF using hlist
  exact ⟨F, hF⟩

theorem listOf_flatMap {F : Value → List Value} {vs : List Value} (hvs : ∀ v ∈ vs, P v)
    (hF : ∀ v, P v → ∀ u ∈ F v, Q u) : listOf Q (.list (vs.flatMap F)) := by
  refine ⟨_, rfl, fun u hu => ?_⟩
  obtain ⟨v, hv, hu⟩ := List.mem_flatMap.mp hu
  exact hF v (hvs v hv) u hu

theorem bind_results_equal {a : Value} {f g : Callback} (ha : listOf P a)
    (hfg : f.Equal S P (listOf Q) g) :
    (results.bind a f).Equal S (listOf Q) (results.bind a g) := by
  obtain ⟨vs, rfl, hvs⟩ := ha
  obtain ⟨F, hF⟩ := exists_lists hfg
  have hf := computes_bind_results fun v hv => (hF v (hvs v hv)).2.1
  have hg := computes_bind_results fun v hv => (hF v (hvs v hv)).2.2
  have hmem := listOf_flatMap hvs fun v hv => (hF v hv).1
  exact .of_computes_both hmem hf hg

theorem unfailing_results {a : Value} (ha : listOf P a) :
    Unfailing S listOf results.bind P a :=
  ⟨ha, fun hf => (bind_results_equal ha hf).succeeds⟩

/-- Each continuation is run once for every item. -/
theorem sequenceLaws_results : SequenceLaws S listOf (fun v => pure (.list [v])) results.bind where
  pure_equal {P v} hv := .pure ⟨[v], rfl, by simpa using hv⟩
  bind_agree ha hfg := (bind_results_equal ha hfg).agree
  left {P Q v f} hv hf := by
    obtain ⟨F, hF⟩ := exists_lists hf
    obtain ⟨hmem, hcode, -⟩ := hF v hv
    have hbind : (results.bind (.list [v]) f).Computes S (.ok (.list ([v].flatMap F))) :=
      computes_bind_results fun u hu => (hF u (List.mem_singleton.mp hu ▸ hv)).2.1
    rw [List.flatMap_singleton] at hbind
    exact ⟨_, fun a ha => Except.ok.inj ha ▸ ⟨F v, rfl, hmem⟩, hbind, hcode⟩
  assoc {P Q R a f g} holds ha hf hg := by
    obtain ⟨vs, rfl, hvs⟩ := ha
    obtain ⟨F, hF⟩ := exists_lists hf
    obtain ⟨G, hG⟩ := exists_lists hg
    have hinner (v : Value) (hv : P v) :
        (results.bind (.list (F v)) g).Computes S (.ok (.list ((F v).flatMap G))) :=
      computes_bind_results fun u hu => (hG u ((hF v hv).1 u hu)).2.1
    have hleft : Prog.Computes S (do results.bind (← results.bind (.list vs) f) g)
        (.ok (.list ((vs.flatMap F).flatMap G))) := by
      refine (computes_bind_results fun v hv => (hF v (hvs v hv)).2.1).bind
        (computes_bind_results fun u hu => ?_)
      obtain ⟨v, hv, hu⟩ := List.mem_flatMap.mp hu
      exact (hG u ((hF v (hvs v hv)).1 u hu)).2.1
    have hright : (results.bind (.list vs)
        ⟨fun v => do results.bind (← f.code v) g, holds⟩).Computes S
        (.ok (.list (vs.flatMap fun v => (F v).flatMap G))) :=
      computes_bind_results fun v hv => (hF v (hvs v hv)).2.1.bind (hinner v (hvs v hv))
    rw [List.flatMap_assoc] at hleft
    have hmem := listOf_flatMap hvs fun v hv u hu => by
      obtain ⟨w, hw, hu⟩ := List.mem_flatMap.mp hu
      exact (hG w ((hF v hv).1 w hw)).1 u hu
    exact ⟨_, fun a ha => Except.ok.inj ha ▸ hmem, hleft, hright⟩

end Effects

end EffectLayers
