import EffectLayers.Proofs.Layer.Laws
import EffectLayers.Proofs.Layer.Stack

/-!
# The monad laws on every stack

Where callbacks compute their answers, the operations of a definition compute too, and what they
compute is a monad on effect values. If that monad is lawful, so is the one of everything that is
built on the definition.

## Main definitions

* `ValueMonad`, `ValueMonad.Lawful`: a monad on effect values, and its laws.
* `ValueMonad.threaded`, `ValueMonad.wrapped`: what escape control and the layers make of it.
* `Interprets`: an operation computes what a function on effect values tells.
* `Definition.Monadic`: the sequencing operations of a definition are those of a monad.
* `Definition.MonadLaws`: the monad laws of a definition, in terms of what programs compute.

## Main statements

* `Definition.Monadic.escaping`, `Definition.Wraps.models`: escape control and layers.
* `Seed.build_monadLaws`: what is built obeys the laws that its base obeys.
-/

namespace EffectLayers

/-! ## Monads on effect values -/

/-- A monad on effect values, with continuations that answer effect values. -/
structure ValueMonad where
  effect : Value → Prop
  pure : Value → Value
  bind : Value → (Value → Value) → Value
  pure_mem : ∀ v, effect (pure v)
  bind_mem : ∀ {a F}, effect a → (∀ v, effect (F v)) → effect (bind a F)

namespace ValueMonad

variable {M : ValueMonad}

/-- The monad laws; the left identity for plain values only. -/
structure Lawful (M : ValueMonad) (plain : Value → Prop) : Prop where
  left : ∀ {v F}, plain v → (∀ u, M.effect (F u)) → M.bind (M.pure v) F = F v
  right : ∀ {a}, M.effect a → M.bind a M.pure = a
  assoc : ∀ {a F G}, M.effect a → (∀ v, M.effect (F v)) → (∀ v, M.effect (G v)) →
    M.bind (M.bind a F) G = M.bind a fun v => M.bind (F v) G

/-- Continuations are skipped for signals. -/
def threaded (M : ValueMonad) : ValueMonad where
  effect := M.effect
  pure := M.pure
  bind a F := M.bind a fun v => if v.isSignal then M.pure v else F v
  pure_mem := M.pure_mem
  bind_mem ha hF := M.bind_mem ha fun v => by
    split
    · exact M.pure_mem v
    · exact hF v

/-- Effect values are wrapped. -/
def wrapped (M : ValueMonad) (W : Wrapping) : ValueMonad where
  effect := W.Image M.effect
  pure v := W.wrap (M.pure v)
  bind a F := W.wrap (M.bind (W.unwrap a) fun v => W.unwrap (F v))
  pure_mem v := ⟨_, M.pure_mem v, rfl⟩
  bind_mem := by
    rintro _ F ⟨a, ha, rfl⟩ hF
    refine ⟨_, M.bind_mem ?_ fun v => ?_, rfl⟩
    · rwa [W.unwrap_wrap]
    · obtain ⟨b, hb, hFv⟩ := hF v
      rwa [hFv, W.unwrap_wrap]

theorem Lawful.mono {plain plain' : Value → Prop} (h : M.Lawful plain)
    (hplain : ∀ v, plain' v → plain v) : M.Lawful plain' :=
  ⟨fun hv hF => h.left (hplain _ hv) hF, h.right, h.assoc⟩

/-- Skipping continuations for signals keeps the laws, but for the left identity at signals. -/
theorem Lawful.threaded (h : M.Lawful fun _ => True) :
    M.threaded.Lawful fun v => v.isSignal = false := by
  have hskip {F : Value → Value} (hF : ∀ v, M.effect (F v)) (v : Value) :
      M.effect (if v.isSignal then M.pure v else F v) := by
    split
    · exact M.pure_mem v
    · exact hF v
  constructor
  case left =>
    intro v F hv hF
    have hleft := h.left (v := v) trivial (hskip hF)
    rw [if_neg (by simp [hv])] at hleft
    exact hleft
  case right =>
    intro a ha
    have hpure : (fun v : Value => if v.isSignal then M.pure v else M.pure v) = M.pure :=
      funext fun v => ite_self _
    change M.bind a (fun v => if v.isSignal then M.pure v else M.pure v) = a
    rw [hpure]
    exact h.right ha
  case assoc =>
    intro a F G ha hF hG
    refine (h.assoc ha (hskip hF) (hskip hG)).trans (congrArg (M.bind a) (funext fun v => ?_))
    by_cases hv : v.isSignal = true
    · -- A signal skips both continuations.
      rw [if_pos hv, if_pos hv, h.left trivial (hskip hG), if_pos hv]
    · rw [if_neg hv, if_neg hv]
      rfl

/-- Wrapping keeps the laws. -/
theorem Lawful.wrapped {plain : Value → Prop} (h : M.Lawful plain) (W : Wrapping) :
    (M.wrapped W).Lawful plain := by
  have hunwrap {F : Value → Value} (hF : ∀ v, (M.wrapped W).effect (F v)) (v : Value) :
      M.effect (W.unwrap (F v)) ∧ W.wrap (W.unwrap (F v)) = F v := by
    obtain ⟨b, hb, hFv⟩ := hF v
    rw [hFv, W.unwrap_wrap]
    exact ⟨hb, rfl⟩
  constructor
  case left =>
    intro v F hv hF
    change W.wrap (M.bind (W.unwrap (W.wrap (M.pure v))) _) = F v
    rw [W.unwrap_wrap, h.left hv fun u => (hunwrap hF u).1]
    exact (hunwrap hF v).2
  case right =>
    rintro _ ⟨a, ha, rfl⟩
    change W.wrap (M.bind (W.unwrap (W.wrap a)) fun v => W.unwrap (W.wrap (M.pure v))) = W.wrap a
    simp only [W.unwrap_wrap]
    exact congrArg W.wrap (h.right ha)
  case assoc =>
    rintro _ F G ⟨a, ha, rfl⟩ hF hG
    simp only [ValueMonad.wrapped, W.unwrap_wrap]
    exact congrArg W.wrap (h.assoc ha (fun v => (hunwrap hF v).1) fun v => (hunwrap hG v).1)

end ValueMonad

/-! ## Operations that compute -/

/-- The callback computes effect values by the function. -/
def Closure.Computes (S : Setting) (E : Value → Prop) (f : Callback) (F : Value → Value) : Prop :=
  ∀ v, E (F v) ∧ (f.code v).Computes S (.ok (F v))

/-- On effect values and with callbacks that compute some, the operation computes the effect value
that `K` tells. -/
def Interprets (S : Setting) (E : Value → Prop) (op : Value → Callback → Prog Value)
    (K : Value → (Value → Value) → Value) : Prop :=
  ∀ a f F, E a → Closure.Computes S E f F → E (K a F) ∧ (op a f).Computes S (.ok (K a F))

namespace Interprets

variable {S : Setting} {E : Value → Prop} {op : Value → Callback → Prog Value}
  {K : Value → (Value → Value) → Value}

/-- The operation under layers. -/
theorem wrapped (h : Interprets S E op K) {W : Wrapping} (hx : S.Installs W.installer)
    (hE : W.Returns E) {outer : Value → Callback → Prog Value}
    (houter : ∀ a f, (outer (W.wrap a) f).Alike (W.wrapped (op a (W.callback f)))) :
    Interprets S (W.Image E) outer fun a F => W.wrap (K (W.unwrap a) fun v => W.unwrap (F v)) := by
  rintro _ f F ⟨a, ha, rfl⟩ hf
  have hcallback : Closure.Computes S E (W.callback f) fun v => W.unwrap (F v) := by
    intro v
    obtain ⟨⟨b, hb, hFv⟩, hcode⟩ := hf v
    rw [hFv] at hcode
    simp only [hFv, W.unwrap_wrap]
    exact ⟨hb, W.computes_enter hx hE hb hcode⟩
  obtain ⟨hmem, hcomputes⟩ := h a _ _ ha hcallback
  simp only [W.unwrap_wrap]
  exact ⟨⟨_, hmem, rfl⟩, (W.computes_wrapped hcomputes).alike (houter a f).symm⟩

/-- Where the function on effect values is associative, so is the operation: both ways of
grouping compute the same effect value. -/
theorem assoc (h : Interprets S E op K)
    (hK : ∀ {a F G}, E a → (∀ v, E (F v)) → (∀ v, E (G v)) →
      K (K a F) G = K a fun v => K (F v) G)
    {a : Value} {f g : Callback} {F G : Value → Value} (ha : E a) (hf : Closure.Computes S E f F)
    (hg : Closure.Computes S E g G) (holds : Holding) :
    ∃ r, E r ∧ (do op (← op a f) g : Prog Value).Computes S (.ok r) ∧
      (op a ⟨fun v => do op (← f.code v) g, holds⟩).Computes S (.ok r) := by
  have hchain : Closure.Computes S E ⟨fun v => do op (← f.code v) g, holds⟩
      fun v => K (F v) G := by
    intro v
    obtain ⟨hmem, hcode⟩ := hf v
    obtain ⟨hmem', hop⟩ := h (F v) g G hmem hg
    exact ⟨hmem', hcode.bind hop⟩
  obtain ⟨hmem, hinner⟩ := h a f F ha hf
  obtain ⟨hmem', houter⟩ := h (K a F) g G hmem hg
  obtain ⟨-, hright⟩ := h a _ _ ha hchain
  refine ⟨K (K a F) G, hmem', hinner.bind houter, ?_⟩
  rw [hK ha (fun v => (hf v).1) fun v => (hg v).1]
  exact hright

end Interprets

/-! ## Definitions that sequence by a monad -/

namespace Definition

/-- `pure` and `bind` are those of a monad on effect values. -/
structure Models (d : Definition) (M : ValueMonad) (S : Setting) : Prop where
  pure : ∀ v, (d.table .pure v).Alike (Pure.pure (M.pure v))
  bind : Interprets S M.effect (d.table .bind) M.bind

/-- Mapping a callback that runs with the definition installed, if there is one, is the same as
continuing with `pure` after the callback. -/
def MapsByBind (d : Definition) (E : Value → Prop) (x : Option Installer) : Prop :=
  ∀ a (f : Callback), E a →
    (d.table .map a (f.map fun code v => (code v).under x)).Same
      (d.table .bind a (f.map fun code v => do d.table .pure (← code v)))

/-- The sequencing operations of a definition are those of a monad, `coerce` leaves effect values
as they are, and callbacks are only called. -/
structure Monadic (d : Definition) (M : ValueMonad) (S : Setting) : Prop extends
    d.Models M S where
  map : d.MapsByBind M.effect none
  coerce : d.Fixes M.effect
  respects : d.table.Respects

/-- The monad laws, for callbacks that compute effect values. Where a law has two sides, both
compute the same effect value. -/
structure MonadLaws (d : Definition) (S : Setting) (E : Value → Prop) (x : Option Installer) :
    Prop where
  right : ∀ m holds, E m → (d.table .bind m ⟨d.table .pure, holds⟩).Computes S (.ok m)
  assoc : ∀ m f g F G holds, E m → Closure.Computes S E f F → Closure.Computes S E g G →
    ∃ r, E r ∧ (do d.table .bind (← d.table .bind m f) g : Prog Value).Computes S (.ok r) ∧
      (d.table .bind m ⟨fun v => do d.table .bind (← f.code v) g, holds⟩).Computes S (.ok r)
  left : ∀ v f F, v.isSignal = false → Closure.Computes S E f F →
    (do d.table .bind (← d.table .pure v) f : Prog Value).Computes S (.ok (F v))
  map : d.MapsByBind E x
  map_computes : ∀ m (f : Callback) (F : Value → Value), E m →
    (∀ v, (f.code v).Computes S (.ok (F v))) →
    ∃ r, E r ∧ (d.table .map m f).Computes S (.ok r) ∧
      (d.table .bind m (f.map fun code v => do d.table .pure (← code v))).Computes S (.ok r)

variable {d e : Definition} {M : ValueMonad} {S : Setting}

namespace Models

theorem computes_pure (h : d.Models M S) (v : Value) :
    (d.table .pure v).Computes S (.ok (M.pure v)) :=
  .of_alike_done (h.pure v)

/-- Continuing with `pure` after a callback that computes anything. -/
theorem computes_pure_after (h : d.Models M S) {f : Callback} {F : Value → Value}
    (hf : ∀ v, (f.code v).Computes S (.ok (F v))) :
    Closure.Computes S M.effect (f.map fun code v => do d.table .pure (← code v))
      fun v => M.pure (F v) :=
  fun v => ⟨M.pure_mem _, (hf v).bind (h.computes_pure _)⟩

theorem right (h : d.Models M S) {plain : Value → Prop} (hM : M.Lawful plain) {m : Value}
    (holds : Holding) (hm : M.effect m) :
    (d.table .bind m ⟨d.table .pure, holds⟩).Computes S (.ok m) := by
  have hpure : Closure.Computes S M.effect ⟨d.table .pure, holds⟩ M.pure :=
    fun v => ⟨M.pure_mem v, h.computes_pure v⟩
  have hbind := (h.bind m _ _ hm hpure).2
  rwa [hM.right hm] at hbind

theorem left (h : d.Models M S) {plain : Value → Prop} (hM : M.Lawful plain) {v : Value}
    {f : Callback} {F : Value → Value} (hv : plain v) (hf : Closure.Computes S M.effect f F) :
    (do d.table .bind (← d.table .pure v) f : Prog Value).Computes S (.ok (F v)) := by
  have hbind := (h.bind _ f F (M.pure_mem v) hf).2
  rw [hM.left hv fun u => (hf u).1] at hbind
  exact (h.computes_pure v).bind hbind

end Models

/-! ### Escape control and layers -/

/-- Threading signals through the results skips continuations. -/
theorem Monadic.threaded (h : d.Monadic M S) (hd : d.supplies .handle = false) {i : DefId}
    (he : (Escape.seed d).definition? i = some e) : e.Monadic M.threaded S := by
  have hrespects := h.respects.escape.definition? he
  have htable (op : Operation) {f : Signature op} (hf : (Escape.threaded d).ops op = some f) :=
    table_threaded hd he op hf
  rw [Escape.seed_of_not_handles hd] at he
  have hpure : e.table .pure = d.table .pure := htable .pure rfl
  constructor
  case toModels =>
    constructor
    case pure =>
      rw [hpure]
      exact h.pure
    case bind =>
      intro a f F ha hf
      rw [htable .bind rfl]
      refine h.bind a _ _ ha fun v => ?_
      by_cases hv : v.isSignal = true
      · simp only [Closure.code_map, if_pos hv]
        exact ⟨M.pure_mem v, h.computes_pure v⟩
      · simp only [Closure.code_map, if_neg hv]
        exact hf v
  case map =>
    intro a f ha
    -- A signal is passed on by `pure` in both cases.
    have hcallback :
        ((f.map fun code v => if v.isSignal then Pure.pure v else code v).map fun code v => (do
          d.table .pure (← code v))) =
        f.map fun code v => if v.isSignal then d.table .pure v else (do
          d.table .pure (← code v)) := by
      refine congrArg (Closure.mk · f.holds) (funext fun v => ?_)
      by_cases hv : v.isSignal = true
      · simp only [if_pos hv, Closure.code_map, pure_bind]
      · simp only [if_neg hv, Closure.code_map]
    rw [htable .map rfl, htable .bind rfl, hpure]
    change (d.table .map a (f.map fun code v => if v.isSignal then Pure.pure v else code v)).Same
      (d.table .bind a (f.map fun code v =>
        if v.isSignal then d.table .pure v else (do d.table .pure (← code v))))
    rw [← hcallback]
    exact h.map a (f.map fun code v => if v.isSignal then Pure.pure v else code v) ha
  case coerce => exact fixes_of_kept (kept_of_definition? "escape" .coerce he rfl rfl) h.coerce
  case respects => exact hrespects

/-- With handlers of its own a definition keeps its sequencing operations. -/
theorem Monadic.native (h : d.Monadic M S) (hd : d.supplies .handle = true) {i : DefId}
    (he : (Escape.seed d).definition? i = some e) : e.Monadic M S := by
  have hrespects := h.respects.escape.definition? he
  have hpure : e.table .pure = d.table .pure := table_native hd he .pure rfl
  have hmap : e.table .map = d.table .map := table_native hd he .map rfl
  have hbind : e.table .bind = d.table .bind := table_native hd he .bind rfl
  rw [Escape.seed_of_handles hd] at he
  constructor
  case toModels => exact ⟨hpure ▸ h.pure, hbind ▸ h.bind⟩
  case map =>
    intro a f ha
    rw [hmap, hbind, hpure]
    exact h.map a f ha
  case coerce => exact fixes_of_kept (kept_of_definition? "escape" .coerce he rfl rfl) h.coerce
  case respects => exact hrespects

/-- Under the layers, `pure` and `bind` are those of the monad on wrapped values. -/
theorem Wraps.models {W : Wrapping} (hW : d.Wraps e W) (he : e.Monadic M S)
    (hx : S.Installs W.installer) : d.Models (M.wrapped W) S where
  pure v := (hW.pure v).trans ((he.pure v).wrapped W)
  bind := he.bind.wrapped hx (hW.returns _ he.coerce) hW.bind

/-- Under the layers, mapping continues with `pure`, but only continuations run with the definition
installed. -/
theorem Wraps.mapsByBind {W : Wrapping} (hW : d.Wraps e W) (he : e.Monadic M S) :
    d.MapsByBind (W.Image M.effect) W.installer := by
  rintro _ f ⟨a, ha, rfl⟩
  have hpure (v : Value) : (d.table .pure v).Alike (Pure.pure (W.wrap (M.pure v))) :=
    (hW.pure v).trans ((he.pure v).wrapped W)
  have hcallback : Closure.Alike
      (W.callback (f.map fun code v => do d.table .pure (← code v)))
      ((f.map fun code v => (code v).under W.installer).map fun code v => do
        e.table .pure (← code v)) := by
    refine ⟨rfl, fun v => ?_⟩
    have hcode : (do d.table .pure (← f.code v) : Prog Value).Alike
        (do return W.wrap (M.pure (← f.code v))) :=
      Prog.Alike.bind_right _ hpure
    have hunder := (hcode.under W.installer).trans (Prog.under_bind _ (f.code v) _)
    have henter := hunder.bind_left W.back
    rw [bind_assoc] at henter
    refine henter.trans (Prog.Alike.bind_right _ fun u => ?_)
    exact (hW.returns _ he.coerce _ (M.pure_mem u)).trans (he.pure u).symm
  have hbind := (hW.bind a _).trans ((he.respects.bind a _ _ hcallback).wrapped W)
  have hmap := he.map a (f.map fun code v => (code v).under W.installer) ha
  exact (hW.map a _).same.trans ((hmap.bind_left _).trans hbind.symm.same)

/-- What models a lawful monad obeys the laws. -/
theorem Models.monadLaws (h : d.Models M S) (hM : M.Lawful fun v => v.isSignal = false)
    {x : Option Installer} (hmap : d.MapsByBind M.effect x)
    (hcomputes : ∀ m (f : Callback) (F : Value → Value), M.effect m →
      (∀ v, (f.code v).Computes S (.ok (F v))) →
      (d.table .map m f).Computes S (.ok (M.bind m fun v => M.pure (F v)))) :
    d.MonadLaws S M.effect x where
  right m holds hm := h.right hM holds hm
  assoc m f g F G holds hm hf hg := h.bind.assoc hM.assoc hm hf hg holds
  left v f F hv hf := h.left hM hv hf
  map := hmap
  map_computes m f F hm hf := by
    obtain ⟨hmem, hbind⟩ := h.bind m _ _ hm (h.computes_pure_after hf)
    exact ⟨_, hmem, hcomputes m f F hm hf, hbind⟩

/-- Mapping a callback that computes anything. -/
theorem Monadic.computes_map (h : d.Monadic M S) {m : Value} {f : Callback} {F : Value → Value}
    (hm : M.effect m) (hf : ∀ v, (f.code v).Computes S (.ok (F v))) :
    (d.table .map m f).Computes S (.ok (M.bind m fun v => M.pure (F v))) :=
  (h.bind m _ _ hm (h.computes_pure_after hf)).2.same (h.map m f hm).symm

/-- Under the layers the laws of the monad beneath hold. -/
theorem Wraps.monadLaws {W : Wrapping} (hW : d.Wraps e W) (he : e.Monadic M S)
    (hM : M.Lawful fun v => v.isSignal = false) (hx : S.Installs W.installer) :
    d.MonadLaws S (W.Image M.effect) W.installer := by
  refine (hW.models he hx).monadLaws (hM.wrapped W) (hW.mapsByBind he) ?_
  rintro _ f F ⟨a, ha, rfl⟩ hf
  have hmap := (W.computes_wrapped (he.computes_map ha hf)).alike (hW.map a f).symm
  simpa only [ValueMonad.wrapped, W.unwrap_wrap] using hmap

/-- With escape control or without it, a lawful monad is modelled, up to signals. -/
theorem Monadic.escaping (h : d.Monadic M S) (hM : M.Lawful fun _ => True) {escape : Bool}
    {c c' : Catalog} (he : d.escaping escape c = (.ok e, c')) :
    ∃ N : ValueMonad, N.effect = M.effect ∧ N.Lawful (fun v => v.isSignal = false) ∧
      e.Monadic N S := by
  have hplain : M.Lawful fun v => v.isSignal = false := hM.mono fun _ _ => trivial
  cases escape with
  | false =>
    cases he
    exact ⟨M, rfl, hplain, h⟩
  | true =>
    obtain ⟨i, he⟩ := definition?_of_withEscapeControl he
    cases hhandle : d.supplies .handle with
    | false => exact ⟨M.threaded, rfl, hM.threaded, h.threaded hhandle he⟩
    | true => exact ⟨M, rfl, hplain, h.native hhandle he⟩

end Definition

/-- What is built obeys the monad laws that its base obeys, the left identity for values that are no
signals. Mapping is continuing with `pure`; with a full context, continuations run with the
definition installed, and what is mapped does not. -/
theorem Seed.build_monadLaws {s : Seed} {o : Options} {c c' : Catalog} {d : Definition}
    {M : ValueMonad} {S : Setting} (hM : M.Lawful fun _ => True)
    (hbase : ∀ d₀ c₀, s.complete c = (.ok d₀, c₀) → d₀.Monadic M S)
    (hbuild : s.build o c = (.ok d, c')) (hknown : d.KnownIn S.catalog) (hhost : S.Hosts d.id) :
    d.MonadLaws S (fun v => ∃ a, M.effect a ∧ v = o.packed d a) (o.installer d) := by
  obtain ⟨d₀, c₀, e, c₁, W, hd₀, he, hW, hwrap, hinstaller⟩ := build_wraps hbuild
  obtain ⟨N, heffect, hN, he⟩ := (hbase d₀ c₀ hd₀).escaping hM he
  have hx : S.Installs W.installer := hinstaller ▸ Options.installs hknown hhost
  have hlaws := hW.monadLaws he hN hx
  rw [hinstaller, heffect] at hlaws
  have himage : W.Image M.effect = fun v => ∃ a, M.effect a ∧ v = o.packed d a := by
    simp only [← hwrap]
    rfl
  rwa [himage] at hlaws

/-! ## Ready-made effects -/

/-- A `map` that is not given continues with `pure`. -/
theorem Seed.mapsByBind_of_definition? {s : Seed} {i : DefId} {d : Definition}
    (hd : s.definition? i = some d) (hmap : s.ops .map = none) (E : Value → Prop) :
    d.MapsByBind E none := by
  intro a f _
  have hderived := map_of_definition? hd hmap a f
  exact Prog.Alike.same (.of_eq hderived)

namespace Effects

variable {d : Definition} {i : DefId} {S : Setting}

/-- Plain values and application. -/
def plainValues : ValueMonad where
  effect _ := True
  pure v := v
  bind a F := F a
  pure_mem _ := trivial
  bind_mem _ _ := trivial

theorem lawful_plainValues : plainValues.Lawful fun _ => True :=
  ⟨fun _ _ => rfl, fun _ => rfl, fun _ _ _ => rfl⟩

theorem monadic_identity (hd : identity.definition? i = some d) : d.Monadic plainValues S := by
  have hmap := Seed.mapsByBind_of_definition? hd rfl plainValues.effect
  have hrespects := Seed.Respects.identity.definition? hd
  obtain rfl := Option.some.inj hd
  constructor
  case toModels =>
    refine ⟨fun v => .refl _, fun a f F _ hf => ⟨trivial, ?_⟩⟩
    exact (hf a).2.holding f.holds
  case map => exact hmap
  case coerce => exact fun _ a _ => .refl _
  case respects => exact hrespects

/-- The items of a list. -/
def items : Value → List Value
  | .list vs => vs
  | _ => []

/-- Lists and every result in turn. -/
def lists : ValueMonad where
  effect v := v.isList = true
  pure v := .list [v]
  bind a F := .list ((items a).flatMap fun v => items (F v))
  pure_mem _ := rfl
  bind_mem _ _ := rfl

theorem eq_list_of_isList {v : Value} (h : v.isList = true) : v = .list (items v) := by
  cases v with
  | list vs => rfl
  | _ => cases h

theorem lawful_lists : lists.Lawful fun _ => True := by
  constructor
  case left =>
    intro v F _ hF
    change Value.list ([v].flatMap fun v => items (F v)) = F v
    rw [List.flatMap_singleton]
    exact (eq_list_of_isList (hF v)).symm
  case right =>
    intro a ha
    change Value.list ((items a).flatMap fun v => [v]) = a
    rw [List.flatMap_singleton']
    exact (eq_list_of_isList ha).symm
  case assoc =>
    intro a F G _ _ _
    change Value.list (((items a).flatMap fun v => items (F v)).flatMap fun v => items (G v)) = _
    rw [List.flatMap_assoc]
    rfl

/-- The walk over the items, after what was found before. -/
theorem computes_bindEach {f : Callback} {F : Value → Value}
    (hf : Closure.Computes S lists.effect f F) (vs found : List Value) :
    (bindEach f found vs).Computes S
      (.ok ((vs.flatMap fun v => items (F v)).reverse ++ found)) := by
  induction vs generalizing found with
  | nil => exact .pure found
  | cons v vs ih =>
    obtain ⟨hmem, hcode⟩ := hf v
    have hcall := ((hcode.holding f.holds).holding { values := vs }).holding { values := found }
    rw [eq_list_of_isList hmem] at hcall
    have hrest := ih ((items (F v)).reverse ++ found)
    rw [List.flatMap_cons, List.reverse_append, List.append_assoc]
    exact hcall.bind hrest

theorem monadic_results (hd : results.definition? i = some d) : d.Monadic lists S := by
  have hmap := Seed.mapsByBind_of_definition? hd rfl lists.effect
  have hrespects := Seed.Respects.results.definition? hd
  obtain rfl := Option.some.inj hd
  constructor
  case toModels =>
    refine ⟨fun v => .refl _, fun a f F ha hf => ⟨rfl, ?_⟩⟩
    have heach := computes_bindEach hf (items a) []
    rw [List.append_nil] at heach
    have hbind : (bindEach f [] (items a) >>= fun found =>
          pure (Value.list found.reverse)).Computes S
        (.ok (.list ((items a).flatMap fun v => items (F v)).reverse.reverse)) :=
      heach.bind (.pure _)
    rw [List.reverse_reverse] at hbind
    rw [eq_list_of_isList ha]
    exact hbind
  case map => exact hmap
  case coerce =>
    intro _ a ha
    exact .of_eq (congrArg pure (if_pos ha))
  case respects => exact hrespects

/-- The lists of every possible result obey the monad laws under every layer. -/
theorem monadLaws_results :
    ∃ d c, results.build ⟨true, some "wrapped", true, .full, .home⟩ .empty = (.ok d, c) ∧
      d.MonadLaws (.silent c d.id)
        (fun v => ∃ a, a.isList = true ∧
          v = (⟨true, some "wrapped", true, .full, .home⟩ : Options).packed d a)
        (some ⟨d.name, d.id⟩) := by
  obtain ⟨d, c, hbuild⟩ : ∃ d c,
      results.build ⟨true, some "wrapped", true, .full, .home⟩ .empty = (.ok d, c) := ⟨_, _, rfl⟩
  refine ⟨d, c, hbuild, Seed.build_monadLaws (M := lists) lawful_lists (fun d₀ c₀ hd₀ => ?_) hbuild
    (Seed.known_of_build hbuild) (Setting.hosts_silent _ _)⟩
  obtain ⟨i, hd₀⟩ := Seed.definition?_of_complete rfl hd₀
  exact monadic_results hd₀

/-- Whether a definition is installed. -/
def asking : Callback := ⟨fun _ => do return .bool (← Prog.query .current).isSome, { }⟩

/-- With a full context, a callback that asks what is installed tells mapping it from continuing
with `pure` after it. -/
theorem not_mapsByBind_identity :
    ∃ d c, identity.build .standard .empty = (.ok d, c) ∧
      let mapped := d.table .map (.int 1) asking
      let bound := d.table .bind (.int 1) (asking.map fun code v => do d.table .pure (← code v))
      mapped.answers c (.hosting d.id) (.bool false) = true ∧
        bound.answers c (.hosting d.id) (.bool true) = true ∧
        ¬ mapped.Same bound ∧ ¬ d.MapsByBind (fun _ => True) none := by
  obtain ⟨d, c, hbuild, hshown⟩ := Seed.exists_of_builds (s := identity) (o := .standard)
    (c := .empty)
    (T := fun d c =>
      let mapped := d.table .map (.int 1) asking
      let bound := d.table .bind (.int 1) (asking.map fun code v => do d.table .pure (← code v))
      mapped.answers c (.hosting d.id) (.bool false) &&
        bound.answers c (.hosting d.id) (.bool true) &&
        !bound.answers c (.hosting d.id) (.bool false))
    (by decide +kernel)
  simp only [Bool.and_eq_true, Bool.not_eq_true'] at hshown
  obtain ⟨⟨hmapped, hbound⟩, hbound'⟩ := hshown
  have hne : ¬ (d.table .map (.int 1) asking).Same
      (d.table .bind (.int 1) (asking.map fun code v => do d.table .pure (← code v))) := by
    intro hsame
    rw [hsame.answers, hbound'] at hmapped
    cases hmapped
  exact ⟨d, c, hbuild, hmapped, hbound, hne, fun h => hne (h (.int 1) asking trivial)⟩

end Effects

end EffectLayers
