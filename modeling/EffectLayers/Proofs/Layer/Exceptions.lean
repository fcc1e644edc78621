import EffectLayers.Proofs.Layer.Cleanup
import EffectLayers.Proofs.Layer.Monad

/-!
# The laws of exceptions in both modes

An exception skips continuations and reaches the handler, which runs once. A value reaches none.
Handlers nest like continuations, and the signals of a block pass both. It makes no difference
whether signals are results or exceptions of the definition beneath.

## Main definitions

* `ValueMonad.handling`, `Value.handledErr`: handlers of signals, and of `Err`, on values.
* `Definition.Skips`, `Definition.Unhandled`: an effect value skips continuations, or handlers.
* `Definition.Reaches`: an effect value reaches the handler, and handlers nest.
* `Definition.Raises`: exceptions skip continuations and reach the handler.
* `Definition.Passing`: what exceptions, values and escapes pass, and what they reach.
* `Definition.ExceptionLaws`: the laws of exceptions.
* `Definition.Continues`: the left identity, for any continuation.
* `Definition.Exceptional`: the bases of both modes.

## Main statements

* `Definition.Exceptional.passing`, `Definition.Exceptional.catches`: escape control on such a base.
* `Definition.Wraps.passing`: layers keep what passes.
* `Seed.build_exceptionLaws`: what is built obeys the laws.
-/

namespace EffectLayers

open Prog.Once (Translates)

/-! ## Handlers -/

/-- A handler as a continuation, which results that are no exceptions pass. -/
def ValueMonad.handling (M : ValueMonad) (H : Value → Value) (v : Value) : Value :=
  match v.caught? .exception with
  | some payload => H payload
  | none => M.pure v

/-- The handler's answer to the payload of `Err`, unless that is a signal. -/
def Value.handledErr (a : Value) (H : Value → Value) : Value :=
  match a.arg? "Err" with
  | some v => if v.isSignal then a else H v
  | none => a

namespace Definition

/-- The end of a block: the payload of its own signal, and any other one is sent on. -/
def unblocked (d : Definition) (send : Value → Prog Value) (t : ScopeId) : Callback where
  code v :=
    match v.caught? (.scope t) with
    | some payload => Prog.keeping [v] (d.table .pure payload)
    | none => send v

/-! ## Laws -/

/-- Continuations of the effect value are skipped, whatever they are. -/
structure Skips (d : Definition) (c : Catalog) (host : DefId) (a : Value) : Prop where
  bind : ∀ f, (d.table .bind a f).Computes (.silent c host) (.ok a)
  map : ∀ f, (d.table .map a f).Computes (.silent c host) (.ok a)

/-- The handlers of the effect value are skipped, whatever they are. -/
def Unhandled (d : Definition) (c : Catalog) (host : DefId) (a : Value) : Prop :=
  ∀ h, (d.table .handle a h).Computes (.silent c host) (.ok a)

/-- The effect value reaches the handler with the payload `v`, and the handler runs once, whatever
it does. A handler of what is handled already, and one of what the first handler answers, both go
on where that one ends. -/
structure Reaches (d : Definition) (c : Catalog) (host : DefId) (E : Value → Prop)
    (x : Option DefId) (a v : Value) : Prop where
  once : ∀ h, (d.table .handle a h).Once c host x (h.code v)
    (Translates E (fun n => n) fun n => n)
  twice : ∀ g h, (do d.table .handle (← d.table .handle a g) h : Prog Value).OnceThen c host E x
    (g.code v) fun r => d.table .handle r h
  nested : ∀ (g h : Callback) (holds : Holding),
    (d.table .handle a ⟨fun u => do d.table .handle (← g.code u) h, holds⟩).OnceThen c host E x
      (g.code v) fun r => d.table .handle r h

theorem Reaches.of_once {d : Definition} {c : Catalog} {host : DefId} {E : Value → Prop}
    {x : Option DefId} {a v : Value} (h : ∀ f, (d.table .handle a f).Once c host x (f.code v)
      (Translates E (fun n => n) fun n => n)) : d.Reaches c host E x a v where
  once := h
  twice g f := (h g).onceThen fun r => d.table .handle r f
  nested g f holds := (h ⟨fun u => do d.table .handle (← g.code u) f, holds⟩).onceThen_of_bind

/-- Exceptions of any payload that is no signal skip continuations and reach the handler with it. -/
def Raises (d : Definition) (c : Catalog) (host : DefId) (E : Value → Prop) (x : Option DefId) :
    Prop :=
  ∀ v, v.isSignal = false → ∃ a, E a ∧ (d.table .raise v).Alike (Pure.pure a) ∧
    d.Skips c host a ∧ d.Reaches c host E x a v

/-- What exceptions, values and escapes pass, and what they reach. Blocks are given an escape for a
fresh scope number; what it answers passes continuations and handlers. -/
structure Passing (d : Definition) (c : Catalog) (host : DefId) (E : Value → Prop)
    (x : Option Installer) : Prop where
  raise : ∀ v, v.isSignal = false → ∃ a, E a ∧ (d.table .raise v).Alike (Pure.pure a) ∧
    d.Skips c host a ∧ d.Reaches c host E (x.map (·.target)) a v
  pure : ∀ v, v.isSignal = false → ∃ a, E a ∧ (d.table .pure v).Alike (Pure.pure a) ∧
    d.Unhandled c host a
  escape : ∃ (escape : ScopeId → Callback) (back : Value → Prog Value)
    (finish : ScopeId → Value → Prog Value),
    (∀ body, (d.table .block body).Alike (Prog.holding body.holds do
      let t ← Prog.query .freshScope
      let r ← Prog.holding body.holds do back (← (body.code (escape t)).under x)
      finish t r)) ∧
    ∀ t v, ∃ a, E a ∧ ((escape t).code v).Alike (Pure.pure a) ∧ d.Skips c host a ∧
      d.Unhandled c host a

/-- The laws of exceptions: what passes, and that a handler of what is handled already is a handler
of what the first handler answers. -/
structure ExceptionLaws (d : Definition) (S : Setting) (host : DefId) (E : Value → Prop)
    (x : Option Installer) : Prop extends d.Passing S.catalog host E x where
  nested : ∀ m g h G H holds, E m → Closure.Computes S E g G → Closure.Computes S E h H →
    ∃ r, E r ∧ (do d.table .handle (← d.table .handle m g) h : Prog Value).Computes S (.ok r) ∧
      (d.table .handle m ⟨fun v => do d.table .handle (← g.code v) h, holds⟩).Computes S (.ok r)

/-- Handlers compute, and nest. -/
def Catches (d : Definition) (S : Setting) (E : Value → Prop) : Prop :=
  ∃ K : Value → (Value → Value) → Value, Interprets S E (d.table .handle) K ∧
    ∀ {a F G}, E a → (∀ v, E (F v)) → (∀ v, E (G v)) → K (K a F) G = K a fun v => K (F v) G

variable {d e : Definition} {S : Setting} {c : Catalog} {host : DefId} {E : Value → Prop}
  {M : ValueMonad}

theorem Catches.nested (h : d.Catches S E) {m : Value} {g h' : Callback} {G H : Value → Value}
    (holds : Holding) (hm : E m) (hg : Closure.Computes S E g G) (hh : Closure.Computes S E h' H) :
    ∃ r, E r ∧ (do d.table .handle (← d.table .handle m g) h' : Prog Value).Computes S (.ok r) ∧
      (d.table .handle m ⟨fun v => do d.table .handle (← g.code v) h', holds⟩).Computes S
        (.ok r) := by
  obtain ⟨K, hK, hassoc⟩ := h
  exact hK.assoc hassoc hm hg hh holds

/-! ## Layers -/

namespace Wraps

variable {W : Wrapping}

theorem skips (hW : d.Wraps e W) {a : Value} (h : e.Skips c host a) :
    d.Skips c host (W.wrap a) where
  bind f := (W.computes_wrapped (h.bind _)).alike (hW.bind a f).symm
  map f := (W.computes_wrapped (h.map f)).alike (hW.map a f).symm

theorem unhandled (hW : d.Wraps e W) {a : Value} (h : e.Unhandled c host a) :
    d.Unhandled c host (W.wrap a) :=
  fun f => (W.computes_wrapped (h _)).alike (hW.handle a f).symm

/-- Under the layers a handler that runs once does so with the definition installed, if there is
one. -/
theorem once_handle (hW : d.Wraps e W) (hE : e.Fixes E) (hx : ∀ a ∈ W.installer, a.target = host)
    (hhost : host ∈ c.lineage host) {a v : Value}
    (h : e.Reaches c host E none a v) (f : Callback) :
    (d.table .handle (W.wrap a) f).Once c host (W.installer.map (·.target)) (f.code v)
      (Translates (W.Image E) (fun n => n) fun n => n) := by
  have henter := W.once_enter hx hhost (hW.returns E hE) (f.code v)
  have hhandle := Wrapping.once_wrapped (W := W) ((h.once (W.callback f)).translating henter)
  refine (hhandle.alike (hW.handle a f).symm).mono fun r r' hr => ?_
  cases hr with
  | fault e => exact .fault e
  | answer hn =>
    obtain ⟨b, hb, rfl⟩ := hn
    exact .answer hb

/-- Layers keep what exceptions skip and reach. -/
theorem raises (hW : d.Wraps e W) (h : e.Raises c host E none) (hE : e.Fixes E)
    (hraise : e.supplies .raise = true) (hx : ∀ a ∈ W.installer, a.target = host)
    (hhost : host ∈ c.lineage host) :
    d.Raises c host (W.Image E) (W.installer.map (·.target)) := by
  intro v hv
  obtain ⟨a, ha, halike, hskips, hreaches⟩ := h v hv
  have houter := ((hW.raise hraise).2 v).trans (halike.wrapped W)
  exact ⟨W.wrap a, ⟨a, ha, rfl⟩, houter, hW.skips hskips,
    .of_once (hW.once_handle hE hx hhost hreaches)⟩

/-- Layers keep what passes. -/
theorem passing (hW : d.Wraps e W) (h : e.Passing c host E none) (hE : e.Fixes E)
    (hraise : e.supplies .raise = true) (hx : ∀ a ∈ W.installer, a.target = host)
    (hhost : host ∈ c.lineage host) : d.Passing c host (W.Image E) W.installer := by
  constructor
  case raise => exact hW.raises h.raise hE hraise hx hhost
  case pure =>
    intro v hv
    obtain ⟨a, ha, halike, hhandle⟩ := h.pure v hv
    exact ⟨W.wrap a, ⟨a, ha, rfl⟩, (hW.pure v).trans (halike.wrapped W), hW.unhandled hhandle⟩
  case escape =>
    obtain ⟨escape, back, finish, hblock, hescape⟩ := h.escape
    refine ⟨fun t => (escape t).map fun send v => W.wrapped (send v),
      fun r => do back (← W.back r), fun t r => W.wrapped (finish t r), fun body => ?_,
      fun t v => ?_⟩
    · refine (hW.block body).trans (((hblock (W.body body)).wrapped W).trans ?_)
      refine (Prog.Alike.inside_bind _ _ fun r => .ok (W.wrap r)).symm.trans ?_
      have hbody (t : ScopeId) :
          (do back (← Prog.under none ((W.body body).code (escape t))) : Prog Value) =
            (body.code ((escape t).map fun send v => W.wrapped (send v))).under W.installer >>=
              fun r => W.back r >>= back :=
        bind_assoc _ _ _
      simp only [bind_assoc, hbody]
      exact .refl _
    · obtain ⟨a, ha, halike, hskips, hhandle⟩ := hescape t v
      exact ⟨W.wrap a, ⟨a, ha, rfl⟩, halike.wrapped W, hW.skips hskips, hW.unhandled hhandle⟩

/-- Layers keep that handlers compute and nest. -/
theorem catches (hW : d.Wraps e W) (h : e.Catches S E) (hE : e.Fixes E)
    (hx : S.Installs W.installer) : d.Catches S (W.Image E) := by
  obtain ⟨K, hK, hassoc⟩ := h
  refine ⟨_, hK.wrapped hx (hW.returns E hE) hW.handle, ?_⟩
  rintro _ F G ⟨a, ha, rfl⟩ hF hG
  have hunwrap {F : Value → Value} (hF : ∀ v, W.Image E (F v)) (v : Value) :
      E (W.unwrap (F v)) := by
    obtain ⟨b, hb, hFv⟩ := hF v
    rwa [hFv, W.unwrap_wrap]
  simp only [W.unwrap_wrap]
  exact congrArg W.wrap (hassoc ha (hunwrap hF) (hunwrap hG))

end Wraps

/-! ## Signals in the results -/

/-- The left identity of continuing, for any continuation: it runs once. -/
def Continues (d : Definition) (M : ValueMonad) (c : Catalog) (host : DefId) : Prop :=
  ∀ v k, (d.table .bind (M.pure v) k).Once c host none (k.code v)
    (Translates M.effect (fun n => n) fun n => n)

theorem Continues.computes (h : d.Continues M c host) {v a : Value} {k : Callback}
    (ha : M.effect a) (hk : (k.code v).Alike (Pure.pure a)) :
    (d.table .bind (M.pure v) k).Computes (.silent c host) (.ok a) :=
  (h v k).computes hk (.answer ha)

section Threaded

variable {i : DefId}

/-- A signal skips continuations. -/
theorem skips_threaded (h : d.Monadic M S) (hleft : d.Continues M c host)
    (hd : d.supplies .handle = false) (he : (Escape.seed d).definition? i = some e) {s : Value}
    (hs : s.isSignal = true) : e.Skips c host (M.pure s) := by
  constructor
  case bind =>
    intro f
    rw [table_threaded hd he .bind rfl]
    refine hleft.computes (M.pure_mem s) ?_
    simp only [Closure.code_map, if_pos hs]
    exact h.pure s
  case map =>
    intro f
    rw [table_threaded hd he .map rfl]
    have hmap := h.map (M.pure s) (f.map fun code v => if v.isSignal then Pure.pure v else code v)
      (M.pure_mem s)
    refine Prog.Computes.same ?_ hmap.symm
    refine hleft.computes (M.pure_mem s) ?_
    simp only [Closure.code_map, if_pos hs, pure_bind]
    exact h.pure s

/-- What is no exception passes handlers. -/
theorem unhandled_threaded (h : d.Monadic M S) (hleft : d.Continues M c host)
    (hd : d.supplies .handle = false) (he : (Escape.seed d).definition? i = some e) {s : Value}
    (hs : s.caught? .exception = none) : e.Unhandled c host (M.pure s) := by
  intro f
  rw [table_threaded hd he .handle rfl]
  refine hleft.computes (M.pure_mem s) ?_
  simp only [Closure.code_map, hs]
  exact h.pure s

theorem passing_threaded (h : d.Monadic M S) (hleft : d.Continues M c host)
    (hd : d.supplies .handle = false) (he : (Escape.seed d).definition? i = some e) :
    e.Passing c host M.effect none := by
  have hpure : e.table .pure = d.table .pure := table_threaded hd he .pure rfl
  constructor
  case raise =>
    intro v _
    let s : Value := .signal v .exception
    refine ⟨M.pure s, M.pure_mem s, ?_, skips_threaded h hleft hd he rfl, .of_once fun f => ?_⟩
    · rw [table_threaded hd he .raise rfl]
      exact h.pure s
    · rw [table_threaded hd he .handle rfl]
      have hcode : (Prog.keeping [s] (f.code v)).Once c host none (f.code v)
          (Translates M.effect (fun n => n) fun n => n) :=
        ((Prog.Once.refl (f.code v)).holding _).answering
      exact (hleft s _).translating hcode
  case pure =>
    intro v hv
    refine ⟨M.pure v, M.pure_mem v, hpure ▸ h.pure v, unhandled_threaded h hleft hd he ?_⟩
    cases v <;> first | rfl | cases hv
  case escape =>
    refine ⟨fun t => { code := fun v => d.table .pure (.signal v (.scope t)) }, Pure.pure,
      fun t r => d.table .bind r (d.unblocked (d.table .pure) t), fun body => ?_, fun t v => ?_⟩
    · rw [table_threaded hd he .block rfl]
      simp only [bind_pure]
      exact .refl _
    · exact ⟨_, M.pure_mem _, h.pure _, skips_threaded h hleft hd he rfl,
        unhandled_threaded h hleft hd he rfl⟩

/-- Handlers are continuations of the results that are exceptions. -/
theorem catches_threaded (h : d.Monadic M S) (hM : M.Lawful fun _ => True)
    (hd : d.supplies .handle = false) (he : (Escape.seed d).definition? i = some e) :
    e.Catches S M.effect := by
  have hstep {H : Value → Value} (hH : ∀ v, M.effect (H v)) (v : Value) :
      M.effect (M.handling H v) := by
    unfold ValueMonad.handling
    split
    · exact hH _
    · exact M.pure_mem v
  refine ⟨fun a H => M.bind a (M.handling H), fun a f F ha hf => ?_, fun ha hF hG => ?_⟩
  · rw [table_threaded hd he .handle rfl]
    refine h.bind a _ _ ha fun v => ⟨hstep (fun v => (hf v).1) v, ?_⟩
    cases hv : v.caught? .exception with
    | some payload =>
      simp only [Closure.code_map, ValueMonad.handling, hv]
      exact (hf payload).2.holding _
    | none =>
      simp only [Closure.code_map, ValueMonad.handling, hv]
      exact h.computes_pure v
  · rename_i a F G
    refine (hM.assoc ha (hstep hF) (hstep hG)).trans (congrArg (M.bind a) (funext fun v => ?_))
    cases hv : v.caught? .exception with
    | some payload => simp only [ValueMonad.handling, hv]
    | none =>
      -- What the inner handler passes on, the outer one passes on too.
      simp only [ValueMonad.handling, hv]
      rw [hM.left trivial (hstep hG)]
      simp only [ValueMonad.handling, hv]

end Threaded

/-! ## Exceptions of the definition itself -/

section Native

variable {i j : DefId}

/-- What is `Err` already skips continuations. -/
theorem skips_native (hd : Effects.either.definition? i = some d)
    (he : (Escape.seed d).definition? j = some e) (v : Value) :
    e.Skips c host (.ctor "Err" v) := by
  obtain rfl := Option.some.inj hd
  obtain rfl := Option.some.inj he
  exact ⟨fun _ => .of_alike_done (.refl _), fun _ => .of_alike_done (.refl _)⟩

/-- What a handler is given of `Err`: any payload but a signal, which is raised again. -/
theorem handle_native (hd : Effects.either.definition? i = some d)
    (he : (Escape.seed d).definition? j = some e) (v : Value) (f : Callback) :
    e.table .handle (.ctor "Err" v) f = Prog.keeping [.ctor "Err" v] (Prog.holding f.holds
      (if v.isSignal then Pure.pure (.ctor "Err" v) else f.code v)) := by
  obtain rfl := Option.some.inj hd
  obtain rfl := Option.some.inj he
  rfl

/-- `Ok` passes handlers, and so do signals. -/
theorem unhandled_native (hd : Effects.either.definition? i = some d)
    (he : (Escape.seed d).definition? j = some e) (v : Value) :
    e.Unhandled c host (.ctor "Ok" v) ∧
      (v.isSignal = true → e.Unhandled c host (.ctor "Err" v)) := by
  constructor
  · obtain rfl := Option.some.inj hd
    obtain rfl := Option.some.inj he
    exact fun _ => .of_alike_done (.refl _)
  · intro hv f
    rw [handle_native hd he v f, if_pos hv]
    exact ((Prog.Computes.pure _).holding _).holding _

theorem passing_native (hd : Effects.either.definition? i = some d)
    (he : (Escape.seed d).definition? j = some e) :
    e.Passing c host Encoding.tagged.IsOutcome none := by
  have hpasses (v : Value) : e.Unhandled c host (.ctor "Ok" v) ∧
      (v.isSignal = true → e.Unhandled c host (.ctor "Err" v)) :=
    unhandled_native hd he v
  constructor
  case raise =>
    intro v hv
    refine ⟨.ctor "Err" v, rfl, ?_, skips_native hd he v, .of_once fun f => ?_⟩
    · obtain rfl := Option.some.inj hd
      obtain rfl := Option.some.inj he
      exact .refl _
    · rw [handle_native hd he v f, if_neg (by simp [hv])]
      exact (((Prog.Once.refl (f.code v)).holding _).holding _).answering
  case pure =>
    intro v _
    refine ⟨.ctor "Ok" v, rfl, ?_, (hpasses v).1⟩
    obtain rfl := Option.some.inj hd
    obtain rfl := Option.some.inj he
    exact .refl _
  case escape =>
    refine ⟨fun t => { code := fun v => d.table .raise (.signal v (.scope t)) }, Pure.pure,
      fun t r => d.table .handle r (d.unblocked (d.table .raise) t), fun body => ?_, fun t v => ?_⟩
    · simp only [bind_pure]
      obtain rfl := Option.some.inj hd
      obtain rfl := Option.some.inj he
      exact .refl _
    · refine ⟨.ctor "Err" (.signal v (.scope t)), rfl, ?_, skips_native hd he _,
        (hpasses _).2 rfl⟩
      obtain rfl := Option.some.inj hd
      exact .refl _

/-- Handlers are given the payload of `Err`, unless it is a signal. -/
theorem catches_native (hd : Effects.either.definition? i = some d)
    (he : (Escape.seed d).definition? j = some e) : e.Catches S Encoding.tagged.IsOutcome := by
  have hok (v : Value) (H : Value → Value) : Value.handledErr (.ctor "Ok" v) H = .ctor "Ok" v := rfl
  have hsignal {v : Value} (hv : v.isSignal = true) (H : Value → Value) :
      Value.handledErr (.ctor "Err" v) H = .ctor "Err" v := if_pos hv
  have herr {v : Value} (hv : ¬ v.isSignal = true) (H : Value → Value) :
      Value.handledErr (.ctor "Err" v) H = H v := if_neg hv
  refine ⟨Value.handledErr, fun a f F ha hf => ?_, fun ha _ _ => ?_⟩
  · obtain ⟨v, rfl | rfl⟩ := Encoding.ok_or_err_of_isOutcome ha
    · rw [hok]
      refine ⟨ha, ?_⟩
      obtain rfl := Option.some.inj hd
      obtain rfl := Option.some.inj he
      exact .of_alike_done (.refl _)
    · rw [handle_native hd he v f]
      by_cases hv : v.isSignal = true
      · rw [hsignal hv, if_pos hv]
        exact ⟨ha, ((Prog.Computes.pure _).holding _).holding _⟩
      · rw [herr hv, if_neg hv]
        exact ⟨(hf v).1, ((hf v).2.holding _).holding _⟩
  · obtain ⟨v, rfl | rfl⟩ := Encoding.ok_or_err_of_isOutcome ha
    · rfl
    · by_cases hv : v.isSignal = true
      · rw [hsignal hv, hsignal hv, hsignal hv]
      · rw [herr hv, herr hv]

end Native

/-! ## Building -/

/-- The bases on which exceptions are lawful. One without a handler of its own has a lawful monad,
whose left identity holds for any continuation; the other one is `Ok` and `Err`. -/
inductive Exceptional (d : Definition) (S : Setting) (host : DefId) : (Value → Prop) → Prop where
  | threaded {M : ValueMonad} (hhandle : d.supplies .handle = false) (laws : M.Lawful fun _ => True)
      (monadic : d.Monadic M S) (continues : d.Continues M S.catalog host) :
      Exceptional d S host M.effect
  | either {i : DefId} (h : Effects.either.definition? i = some d) :
      Exceptional d S host fun v => Effects.isOutcome v = true

namespace Exceptional

variable {c₀ c₁ : Catalog}

theorem fixes (h : d.Exceptional S host E) : d.Fixes E := by
  cases h with
  | threaded _ _ monadic _ => exact monadic.coerce
  | either h => exact (Encoding.cleans_either h).fixes

/-- Escape control on such a base. -/
theorem withEscapeControl (h : d.Exceptional S host E)
    (he : d.withEscapeControl c₀ = (.ok e, c₁)) :
    e.supplies .raise = true ∧ e.Passing S.catalog host E none ∧ e.Catches S E := by
  obtain ⟨i, he⟩ := definition?_of_withEscapeControl he
  refine ⟨?_, ?_⟩
  · rw [Seed.supplies_of_definition? he, Escape.seed]
    split <;> rfl
  · cases h with
    | threaded hhandle laws monadic continues =>
      exact ⟨passing_threaded monadic continues hhandle he,
        catches_threaded monadic laws hhandle he⟩
    | either h => exact ⟨passing_native h he, catches_native h he⟩

end Exceptional

end Definition

/-- With escape control, what is built obeys the laws of exceptions: an exception skips
continuations and its handler runs once, with the definition installed if the context is full;
values and escapes pass handlers; handlers nest, those of an exception whatever they do, and those
of any effect value if they compute. -/
theorem Seed.build_exceptionLaws {s : Seed} {o : Options} {c c' : Catalog} {d : Definition}
    {S : Setting} {E : Value → Prop} (ho : o.escape = true)
    (hbase : ∀ d₀ c₀, s.complete c = (.ok d₀, c₀) → d₀.Exceptional S d.id E)
    (hbuild : s.build o c = (.ok d, c')) (hknown : d.KnownIn S.catalog) (hhost : S.Hosts d.id) :
    d.ExceptionLaws S d.id (fun v => ∃ a, E a ∧ v = o.packed d a) (o.installer d) := by
  obtain ⟨d₀, c₀, e, c₁, W, hd₀, he, hW, hwrap, hinstaller⟩ := build_wraps hbuild
  have hfixes := (hbase d₀ c₀ hd₀).fixes.escaping he
  rw [ho] at he
  obtain ⟨hraise, hpassing, hcatches⟩ := (hbase d₀ c₀ hd₀).withEscapeControl he
  have hx : ∀ a ∈ W.installer, a.target = d.id :=
    fun a ha => Options.target_of_installer (hinstaller ▸ ha)
  have hinstalls : S.Installs W.installer := hinstaller ▸ Options.installs hknown hhost
  have hpasses := hW.passing hpassing hfixes hraise hx (Definition.mem_lineage hknown)
  have hcaught := hW.catches hcatches hfixes hinstalls
  have himage : W.Image E = fun v => ∃ a, E a ∧ v = o.packed d a := by
    simp only [← hwrap]
    rfl
  rw [hinstaller, himage] at hpasses
  rw [himage] at hcaught
  exact ⟨hpasses, fun m g h G H holds hm hg hh => hcaught.nested holds hm hg hh⟩

/-! ## Ready-made effects -/

namespace Effects

variable {d : Definition} {i : DefId} {S : Setting} {c : Catalog} {host : DefId}

theorem continues_identity (hd : identity.definition? i = some d) :
    d.Continues plainValues c host := by
  obtain rfl := Option.some.inj hd
  exact fun v k => ((Prog.Once.refl (k.code v)).holding k.holds).answering

theorem continues_results (hd : results.definition? i = some d) : d.Continues lists c host := by
  obtain rfl := Option.some.inj hd
  intro v k
  have hcall : (Prog.keeping [] (Prog.keeping [] (k.call v))).Once c host none (k.code v)
      (Translates lists.effect (fun n => n) fun n => n) :=
    ((((Prog.Once.refl (k.code v)).holding k.holds).holding _).holding _).answering
  change (results.bind (.list [v]) k).Once c host none (k.code v) _
  rw [bind_singleton]
  refine hcall.translate fun n hn => ?_
  rw [eq_list_of_isList hn]
  simp only [Value.asList, pure_bind, List.append_nil, List.reverse_reverse]
  exact .refl _

theorem exceptional_results (hd : results.definition? i = some d) :
    d.Exceptional S host lists.effect :=
  .threaded ((Seed.supplies_of_definition? hd .handle).trans rfl) lawful_lists
    (monadic_results hd) (continues_results hd)

theorem exceptional_identity (hd : identity.definition? i = some d) :
    d.Exceptional S host plainValues.effect :=
  .threaded ((Seed.supplies_of_definition? hd .handle).trans rfl) lawful_plainValues
    (monadic_identity hd) (continues_identity hd)

/-- Under every layer, the exceptions of lists of results and those of `Ok` and `Err`, for handlers
that may do anything as long as their answers depend on what they are given only. -/
theorem exceptionLaws_results_either :
    let o : Options := ⟨true, some "wrapped", true, .full, .home⟩
    (∃ d c, results.build o .empty = (.ok d, c) ∧
      d.ExceptionLaws (.free c d.id) d.id (fun v => ∃ a, a.isList = true ∧ v = o.packed d a)
        (some ⟨d.name, d.id⟩)) ∧
    ∃ d c, either.build o .empty = (.ok d, c) ∧
      d.ExceptionLaws (.free c d.id) d.id (fun v => ∃ a, isOutcome a = true ∧ v = o.packed d a)
        (some ⟨d.name, d.id⟩) := by
  intro o
  constructor
  · obtain ⟨d, c, hbuild⟩ : ∃ d c, results.build o .empty = (.ok d, c) := ⟨_, _, rfl⟩
    refine ⟨d, c, hbuild, Seed.build_exceptionLaws rfl (fun d₀ c₀ hd₀ => ?_) hbuild
      (Seed.known_of_build hbuild) (Setting.hosts_free _ _)⟩
    obtain ⟨i, hd₀⟩ := Seed.definition?_of_complete rfl hd₀
    exact exceptional_results hd₀
  · obtain ⟨d, c, hbuild⟩ : ∃ d c, either.build o .empty = (.ok d, c) := ⟨_, _, rfl⟩
    refine ⟨d, c, hbuild, Seed.build_exceptionLaws rfl (fun d₀ c₀ hd₀ => ?_) hbuild
      (Seed.known_of_build hbuild) (Setting.hosts_free _ _)⟩
    obtain ⟨i, hd₀⟩ := Seed.definition?_of_complete rfl hd₀
    exact .either hd₀

/-- Installs a definition and raises the payload again. -/
def installing : Callback :=
  ⟨fun v => do
    let _ ← Prog.query (.install (some 0))
    return .list [.signal v .exception], { }⟩

/-- Whether a definition was installed; there is none any more. -/
def taking : Callback :=
  ⟨fun _ => do return .list [.bool (← Prog.query (.install none)).isSome], { }⟩

/-- With a full context, a handler that asks what is installed tells that it is called by `handle`.
Without a context, handlers that change what they ask for tell the order in which the handlers of
two exceptions are called. -/
theorem not_exceptionLaws_effectful :
    (∃ d c, identity.build .standard .empty = (.ok d, c) ∧
      let handled : Prog Value := do d.table .handle (← d.table .raise (.int 1)) asking
      handled.answers c (.hosting d.id) (.bool true) = true ∧
        (asking.code (.int 1)).answers c (.hosting d.id) (.bool false) = true ∧
        ¬ handled.Same (asking.code (.int 1))) ∧
    ∃ d c, results.build ⟨true, none, false, .off, .home⟩ .empty = (.ok d, c) ∧
      let raised : Value := .list [.signal (.int 1) .exception, .signal (.int 2) .exception]
      let twice : Prog Value := do
        d.table .handle (← d.table .handle raised installing) taking
      let nested : Prog Value := d.table .handle raised
        ⟨fun v => do d.table .handle (← installing.code v) taking, { }⟩
      twice.answers c (.hosting d.id) (.list [.bool true, .bool false]) = true ∧
        nested.answers c (.hosting d.id) (.list [.bool true, .bool true]) = true ∧
        ¬ twice.Same nested := by
  constructor
  · obtain ⟨d, c, hbuild, hshown⟩ := Seed.exists_of_builds (s := identity) (o := .standard)
      (c := .empty)
      (T := fun d c =>
        let handled : Prog Value := do d.table .handle (← d.table .raise (.int 1)) asking
        handled.answers c (.hosting d.id) (.bool true) &&
          (asking.code (.int 1)).answers c (.hosting d.id) (.bool false) &&
          !(asking.code (.int 1)).answers c (.hosting d.id) (.bool true))
      (by decide +kernel)
    simp only [Bool.and_eq_true, Bool.not_eq_true'] at hshown
    obtain ⟨⟨hhandled, hasked⟩, hasked'⟩ := hshown
    refine ⟨d, c, hbuild, hhandled, hasked, fun hsame => ?_⟩
    rw [hsame.answers, hasked'] at hhandled
    cases hhandled
  · obtain ⟨d, c, hbuild, hshown⟩ := Seed.exists_of_builds (s := results)
      (o := ⟨true, none, false, .off, .home⟩) (c := .empty)
      (T := fun d c =>
        let raised : Value := .list [.signal (.int 1) .exception, .signal (.int 2) .exception]
        let twice : Prog Value := do
          d.table .handle (← d.table .handle raised installing) taking
        let nested : Prog Value := d.table .handle raised
          ⟨fun v => do d.table .handle (← installing.code v) taking, { }⟩
        twice.answers c (.hosting d.id) (.list [.bool true, .bool false]) &&
          nested.answers c (.hosting d.id) (.list [.bool true, .bool true]) &&
          !nested.answers c (.hosting d.id) (.list [.bool true, .bool false]))
      (by decide +kernel)
    simp only [Bool.and_eq_true, Bool.not_eq_true'] at hshown
    obtain ⟨⟨htwice, hnested⟩, hnested'⟩ := hshown
    refine ⟨d, c, hbuild, htwice, hnested, fun hsame => ?_⟩
    rw [hsame.answers, hnested'] at htwice
    cases htwice

end Effects

end EffectLayers
