import EffectLayers.Proofs.Program.Stops
import EffectLayers.Proofs.Session.Escapes
import EffectLayers.Proofs.Session.Homes

/-!
# Bind by lookup

A seed that gives neither `bind` nor `join` and `map` binds by lookup: a value is bound as its own
kind is, and an object by a method that may do anything. What a definition binds so is found through
its layers. All of them hand the value on as it is, with another callback, except for a carrier
layer, which takes it out of its carrier.

## Main definitions

* `Seed.looksUp`: a seed that binds by lookup.
* `Definition.Prompt`: the constructors of a definition stop.
* `Definition.FlatOn`: layers without a carrier on top of a definition.
* `Value.MethodStops`: the method of an object stops.
* `Definition.Asks`: what the bind of a definition looks up.
* `Value.nested`: a value and all that is beneath its carriers.
* `Value.Resolves`: bind by lookup stops.

## Main statements

* `Definition.Asks.stops`, `Definition.Asks.exhausts`: bind stops or not, as what it looks up does.
* `Definition.Asks.mem_nested`: only what is in a value is looked up.
* `Seed.asks_build`: what the bind of a definition that was built looks up.
-/

namespace EffectLayers

variable {c : Catalog} {w w' : World}

/-! ## Seeds -/

/-- From the world `w` on, the pure and the coercion of the definition stop. -/
structure Definition.Prompt (c : Catalog) (w : World) (d : Definition) : Prop where
  pure : StopsFrom c w (d.table .pure)
  coerce : StopsFrom c w (d.table .coerce)

theorem Definition.Prompt.mono {d : Definition} (h : d.Prompt c w) (hw : w.Grows w') :
    d.Prompt c w' :=
  ⟨h.pure.mono hw, h.coerce.mono hw⟩

namespace Seed

variable {s : Seed} {id : DefId} {d : Definition}

/-- Whether bind is neither given nor made of `join` and `map`. -/
def looksUp (s : Seed) : Bool := !s.supplies .bind && !(s.supplies .join && s.supplies .map)

theorem bind_of_looksUp (h : s.looksUp = true) : s.bind = Value.bindByMethod := by
  simp only [looksUp, supplies, Bool.and_eq_true, Bool.not_eq_true', Bool.and_eq_false_iff,
    Option.isSome_eq_false_iff, Option.isNone_iff_eq_none] at h
  obtain ⟨hbind, hjoin | hmap⟩ := h
  · simp only [bind, hbind, hjoin]
  · cases hjoin : s.ops .join <;> simp only [bind, hbind, hmap, hjoin]

/-- From the world `w` on, those operations stop that `bind` is made of, if they are given. -/
structure Stops (c : Catalog) (w : World) (s : Seed) : Prop where
  pure : ∀ f, s.ops .pure = some f → StopsFrom c w f
  coerce : ∀ f, s.ops .coerce = some f → StopsFrom c w f
  join : ∀ f, s.ops .join = some f → StopsFrom c w f
  map : ∀ f, s.ops .map = some f → ContinuesFrom c w f
  bind : ∀ f, s.ops .bind = some f → ContinuesFrom c w f

theorem Stops.bind_of_not_looksUp (hs : s.Stops c w) (h : s.looksUp = false) :
    ContinuesFrom c w s.bind := by
  cases hbind : s.ops .bind with
  | some f =>
    simp only [Seed.bind, hbind]
    exact hs.bind f hbind
  | none =>
    simp only [looksUp, supplies, hbind, Option.isSome_none, Bool.not_false, Bool.true_and,
      Bool.not_eq_false', Bool.and_eq_true, Option.isSome_iff_exists] at h
    obtain ⟨⟨join, hjoin⟩, map, hmap⟩ := h
    simp only [Seed.bind, hbind, hjoin, hmap]
    exact fun a f w' hw hf => (hs.map map hmap a f w' hw hf).bind fun u w'' hu =>
      hs.join join hjoin u w'' (hw.trans hu.grows)

theorem bind_of_definition? (hd : s.definition? id = some d) : d.table .bind = s.bind := by
  obtain ⟨lift, -, rfl⟩ := Option.map_eq_some_iff.mp hd
  rfl

/-- A definition is prompt if the pure and the coercion that its seed gives stop. -/
theorem prompt (hd : s.definition? id = some d)
    (hpure : ∀ f, s.ops .pure = some f → StopsFrom c w f)
    (hcoerce : ∀ f, s.ops .coerce = some f → StopsFrom c w f) : d.Prompt c w := by
  obtain ⟨lift, hlift, rfl⟩ := Option.map_eq_some_iff.mp hd
  refine ⟨hpure lift hlift, ?_⟩
  change StopsFrom c w ((s.ops .coerce).getD Pure.pure)
  cases h : s.ops .coerce with
  | none => exact .pure c w
  | some f => exact hcoerce f h

end Seed

/-! ## Layers -/

/-- Code that runs with a definition installed, if there is one. -/
theorem StopsFrom.under {code : Value → Prog Value} (h : StopsFrom c w code)
    (x : Option Installer) : StopsFrom c w fun v => (code v).under x := by
  intro v w' hw
  cases x with
  | none => exact h v w' hw
  | some a =>
    refine .query_bind ?_
    cases (Query.answer c w' (.alive a.target)).1 with
    | false => exact .throw _ _
    | true => exact .inside _ (h v _ (hw.entering _))

namespace Packing

variable {p : Packing} {f : Callback}

theorem unpack_of_inner? {v x : Value} (h : p.inner? v = some x) : p.unpack v = pure x := by
  simp only [unpack, h]

/-- What is no carrier of the brand is coerced or refused. -/
theorem unpack_foreign {v : Value} (h : p.inner? v = none) :
    (∃ promote, p.coercion = some promote ∧ p.unpack v = promote v) ∨
      p.coercion = none ∧ ∃ e, p.unpack v = throw e := by
  unfold unpack
  rw [h]
  cases p.coercion with
  | some promote => exact .inl ⟨promote, rfl, rfl⟩
  | none => cases v <;> exact .inr ⟨rfl, _, rfl⟩

theorem stops_unpack (h : ∀ promote, p.coercion = some promote → StopsFrom c w promote) :
    StopsFrom c w p.unpack := by
  intro v w' hw
  cases hx : p.inner? v with
  | some x =>
    rw [unpack_of_inner? hx]
    exact .pure x w'
  | none =>
    rcases unpack_foreign hx with ⟨promote, hpromote, hunpack⟩ | ⟨-, e, hunpack⟩
    · rw [hunpack]
      exact h promote hpromote v w' hw
    · rw [hunpack]
      exact .throw e w'

end Packing

namespace Definition

variable {inner d : Definition} {id : DefId} {brand : Brand}

theorem coercion_packing {promote : Value → Prog Value}
    (h : (inner.packing brand).coercion = some promote) :
    inner.supplies .coerce = true ∧ promote = inner.table .coerce := by
  unfold packing at h
  split at h
  · cases h
    exact ⟨‹_›, rfl⟩
  · cases h

theorem Prompt.unpack (h : inner.Prompt c w) : StopsFrom c w (inner.packing brand).unpack :=
  Packing.stops_unpack fun _ hpromote => (coercion_packing hpromote).2 ▸ h.coerce

theorem bind_of_carrier (hd : ((inner.packing brand).seed inner).definition? id = some d) :
    d.table .bind = (inner.packing brand).bindWith fun a f =>
      inner.table .bind a ((inner.packing brand).unpacking f) :=
  Seed.table_given hd .bind rfl

/-- A layer that keeps `pure`, and `coerce` if it was given, is prompt if what is beneath it is. -/
theorem Prompt.keeping {s : Seed} (h : inner.Prompt c w) (hd : s.definition? id = some d)
    (layer : String) (hpure : s.ops .pure = some (inner.table .pure))
    (hcoerce : s.ops .coerce = (Seed.keeping inner layer).ops .coerce) : d.Prompt c w := by
  refine Seed.prompt hd (fun f hf => ?_) fun f hf => ?_
  · rw [hpure] at hf
    exact Option.some.inj hf ▸ h.pure
  · rw [hcoerce] at hf
    exact Seed.eq_of_keeping hf ▸ h.coerce

theorem Prompt.carrier (h : inner.Prompt c w)
    (hd : ((inner.packing brand).seed inner).definition? id = some d) : d.Prompt c w := by
  have hpacked {code : Value → Prog Value} (hcode : StopsFrom c w code) :
      StopsFrom c w fun v => (inner.packing brand).packed (code v) :=
    fun v w' hw => (hcode v w' hw).bind fun _ w'' _ => .pure _ w''
  refine Seed.prompt hd (fun f hf => ?_) fun f hf => ?_
  · cases hf
    exact hpacked h.pure
  · obtain ⟨promote, hpromote, rfl⟩ := Option.map_eq_some_iff.mp hf
    obtain ⟨-, rfl⟩ := coercion_packing hpromote
    intro v w' hw
    unfold Packing.coerce
    split
    · exact .pure v w'
    · exact hpacked h.coerce v w' hw

theorem Prompt.puts {l : Layer} (h : inner.Prompt c w) (hl : l.Puts inner d) : d.Prompt c w := by
  cases hl with
  | escape hd =>
    refine h.keeping hd "escape" ?_ ?_
    all_goals
      unfold Escape.seed
      split <;> rfl
  | coercion _ hd => exact h.keeping hd "coerce" rfl rfl
  | carrier hd => exact h.carrier hd
  | off => exact h
  | @context mode _ _ _ _ hd =>
    exact h.keeping hd "context" (by cases mode <;> rfl) (by cases mode <;> rfl)

end Definition

/-- A context layer binds as what is beneath it does, with a callback that may run with a definition
installed. -/
theorem Layer.Puts.bind_context {mode : ContextMode} {inner d : Definition}
    (hl : (Layer.context mode).Puts inner d) : ∃ x : Option Installer,
      ∀ a f, d.table .bind a f = inner.table .bind a (f.map fun code v => (code v).under x) := by
  cases hl with
  | off => exact ⟨none, fun _ _ => rfl⟩
  | @context _ _ _ id hmode hd =>
    refine ⟨mode.installer ⟨inner.name ++ "+context", id⟩, fun a f => ?_⟩
    cases mode with
    | off => exact absurd rfl hmode
    | runOnly | full => exact congrFun (congrFun (Seed.table_given hd .bind rfl) a) f

/-- A layer that is no carrier binds as what is beneath it does, with another callback. -/
theorem Layer.Puts.bind {l : Layer} {inner d : Definition} (hl : l.Puts inner d)
    (hflat : ∀ name, l ≠ .carrier name) :
    ∃ g : (Value → Prog Value) → Value → Prog Value,
      (∀ a f, d.table .bind a f = inner.table .bind a (f.map g)) ∧
        ∀ c w code, inner.Prompt c w → StopsFrom c w code → StopsFrom c w (g code) := by
  cases l with
  | carrier name => exact absurd rfl (hflat name)
  | context mode =>
    obtain ⟨x, hbind⟩ := hl.bind_context
    exact ⟨_, hbind, fun _ _ _ _ hcode => StopsFrom.under hcode x⟩
  | coercion =>
    cases hl with
    | coercion _ hd =>
      refine ⟨fun code v => do inner.table .coerce (← code v), fun a f => ?_,
        fun c w code hinner hcode => hcode.bind hinner.coerce⟩
      exact congrFun (congrFun (Seed.table_given hd .bind rfl) a) f
  | escape =>
    cases hl with
    | escape hd =>
      cases hhandle : inner.supplies .handle with
      | true =>
        rw [Escape.seed_eq_native hhandle] at hd
        refine ⟨fun code => code, fun a f => ?_, fun _ _ _ _ h => h⟩
        exact congrFun (congrFun (Seed.table_given hd .bind rfl) a) f
      | false =>
        rw [Escape.seed_eq_threaded hhandle] at hd
        refine ⟨fun code v => if v.isSignal then inner.table .pure v else code v, fun a f => ?_,
          fun c w code hinner hcode v w' hw => ?_⟩
        · exact congrFun (congrFun (Seed.table_given hd .bind rfl) a) f
        · dsimp only
          split
          · exact hinner.pure v w' hw
          · exact hcode v w' hw

/-! ### Layers without a carrier -/

/-- The definition is that of layers on top of `inner`, and no carrier is among them. -/
def Definition.FlatOn (d inner : Definition) : Prop :=
  ∃ ls, Layer.PutsAll ls inner d ∧ ∀ l ∈ ls, ∀ name, l ≠ .carrier name

namespace Definition.FlatOn

variable {inner mid d : Definition} {c' : Catalog}

theorem refl (d : Definition) : d.FlatOn d := ⟨[], .nil d, nofun⟩

theorem trans (h : d.FlatOn mid) (h' : mid.FlatOn inner) : d.FlatOn inner := by
  obtain ⟨ls, hls, hflat⟩ := h
  obtain ⟨ls', hls', hflat'⟩ := h'
  exact ⟨ls' ++ ls, hls'.append hls, List.forall_mem_append.mpr ⟨hflat', hflat⟩⟩

theorem of_puts {l : Layer} (h : l.Puts inner d) (hflat : ∀ name, l ≠ .carrier name) :
    d.FlatOn inner :=
  ⟨[l], .cons h (.nil d), List.forall_mem_singleton.mpr hflat⟩

theorem prompt (h : d.FlatOn inner) (hinner : inner.Prompt c w) : d.Prompt c w := by
  obtain ⟨ls, hls, -⟩ := h
  induction hls with
  | nil => exact hinner
  | cons hl _ ih => exact ih (hinner.puts hl)

theorem bind (h : d.FlatOn inner) : ∃ g : (Value → Prog Value) → Value → Prog Value,
    (∀ a f, d.table .bind a f = inner.table .bind a (f.map g)) ∧
      ∀ c w code, inner.Prompt c w → StopsFrom c w code → StopsFrom c w (g code) := by
  obtain ⟨ls, hls, hflat⟩ := h
  induction hls with
  | nil => exact ⟨fun code => code, fun _ _ => rfl, fun _ _ _ _ h => h⟩
  | cons hl _ ih =>
    obtain ⟨hflat, hflats⟩ := List.forall_mem_cons.mp hflat
    obtain ⟨g, hbind, hg⟩ := hl.bind hflat
    obtain ⟨g', hbind', hg'⟩ := ih hflats
    exact ⟨g ∘ g', fun a f => (hbind' a f).trans (hbind a (f.map g')),
      fun c w code hinner hcode => hg c w _ hinner (hg' c w code (hinner.puts hl) hcode)⟩

theorem of_escaping {escape : Bool} (h : inner.escaping escape c = (.ok d, c')) :
    d.FlatOn inner := by
  cases escape with
  | false =>
    cases h
    exact refl inner
  | true =>
    obtain ⟨id, hd⟩ := definition?_of_withEscapeControl h
    exact of_puts (.escape hd) nofun

theorem of_coercing {coercion : Bool} (h : inner.coercing coercion c = (.ok d, c')) :
    d.FlatOn inner := by
  cases coercion with
  | false =>
    cases h
    exact refl inner
  | true =>
    obtain ⟨id, hd⟩ := definition?_of_withCoercion h
    cases hcoerce : inner.supplies .coerce with
    | true => exact of_puts (.coercion hcoerce hd) nofun
    | false => simp [coercing, withCoercion, hcoerce, Assembly.refuse] at h

end Definition.FlatOn

theorem Layer.puts_of_withContext {mode : ContextMode} {inner d : Definition} {c' : Catalog}
    (h : inner.withContext mode c = (.ok d, c')) : (Layer.context mode).Puts inner d := by
  by_cases hmode : mode = .off
  · subst hmode
    cases h
    exact .off inner
  · obtain ⟨id, hd⟩ := Definition.definition?_of_withContext hmode h
    exact .context hmode hd

/-- Completing a seed puts at most a context layer on its definition. -/
theorem Seed.puts_of_complete {s : Seed} {d : Definition} {c' : Catalog}
    (h : s.complete c = (.ok d, c')) : ∃ (inner : Definition) (id : DefId) (mode : ContextMode),
      s.definition? id = some inner ∧ (Layer.context mode).Puts inner d := by
  obtain ⟨inner, id, c₁, c₂, hinner, hcontext⟩ := context_of_complete h
  exact ⟨inner, id, s.restoring, hinner, Layer.puts_of_withContext hcontext⟩

/-! ## What a bind looks up -/

/-- From the world `w` on, the method of the value stops with every callback that does, if the value
is an object that has one. -/
def Value.MethodStops (c : Catalog) (w : World) (a : Value) : Prop :=
  ∀ id text method, a = .object id text method → ∀ f w', w.Grows w' → StopsFrom c w' f.code →
    (a.bindByMethod f).Stops c w'

/-- From the world `w` on, the bind of the definition looks up the bind of the second value, or
nothing, when it is given the first; the callback apart, all else that it does stops. -/
inductive Definition.Asks (c : Catalog) (w : World) : Definition → Value → Option Value → Prop
  /-- Bind is given, or made of what is given. -/
  | given {s : Seed} {id : DefId} {d : Definition} (v : Value) (hd : s.definition? id = some d)
      (hbind : s.looksUp = false) (hs : s.Stops c w) : Asks c w d v none
  | lookup {s : Seed} {id : DefId} {d : Definition} (v : Value) (hd : s.definition? id = some d)
      (hbind : s.looksUp = true) : Asks c w d v (some v)
  /-- What is no carrier leads nowhere, if no method does. -/
  | plain {s : Seed} {id : DefId} {d : Definition} {v : Value} (hd : s.definition? id = some d)
      (hbind : s.looksUp = true) (hv : ∀ b x, v ≠ .carrier b x) (hmethod : v.MethodStops c w) :
      Asks c w d v none
  /-- A definition was given the bind of another one, as one that extends it is. -/
  | kept {s : Seed} {id : DefId} {inner d : Definition} {v : Value} {y : Option Value}
      (hd : s.definition? id = some d) (hbind : s.ops .bind = some (inner.table .bind))
      (h : Asks c w inner v y) : Asks c w d v y
  | flat {inner d : Definition} {v : Value} {y : Option Value} (hd : d.FlatOn inner)
      (hinner : inner.Prompt c w) (h : Asks c w inner v y) : Asks c w d v y
  /-- A carrier layer is given a carrier of its brand. -/
  | own {brand : Brand} {id : DefId} {inner d : Definition} {v x : Value} {y : Option Value}
      (hd : ((inner.packing brand).seed inner).definition? id = some d)
      (hx : (inner.packing brand).inner? v = some x) (hinner : inner.Prompt c w)
      (h : Asks c w inner x y) : Asks c w d v y
  /-- A carrier layer is given anything else: it is refused, or coerced into something for which
  nothing is looked up. -/
  | foreign {brand : Brand} {id : DefId} {inner d : Definition} {v : Value}
      (hd : ((inner.packing brand).seed inner).definition? id = some d)
      (hx : (inner.packing brand).inner? v = none) (hinner : inner.Prompt c w)
      (h : ∀ w₁ u w₂, inner.supplies .coerce = true →
        (inner.table .coerce v).Ends c w₁ (.ok u) w₂ → Asks c w inner u none) : Asks c w d v none

namespace Value

/-- The value and, if it is a carrier, all that is in it, outermost first. -/
def nested : Value → List Value
  | carrier brand inner => carrier brand inner :: inner.nested
  | v => [v]

theorem mem_nested_self (v : Value) : v ∈ v.nested := by
  cases v <;> exact List.mem_cons_self

/-- From the world `w` on, and while nobody notices anything, bind by lookup stops with every
callback that does. -/
def Resolves (c : Catalog) (w : World) (a : Value) : Prop :=
  ∀ f w', w.Unnoticed w' → StopsFrom c w' f.code → (a.bindByMethod f).Stops c w'

theorem Resolves.mono {a : Value} (h : a.Resolves c w) (hw : w.Unnoticed w') : a.Resolves c w' :=
  fun f w'' hw' => h f w'' (hw.trans hw')

/-- What is no carrier has a bind of its own or none at all. That of an object may do anything. -/
theorem stops_bindByMethod {a : Value} (ha : ∀ b x, a ≠ .carrier b x) {f : Callback}
    (hmethod : ∀ id text method, a = .object id text method → (a.bindByMethod f).Stops c w)
    (hf : StopsFrom c w f.code) : (a.bindByMethod f).Stops c w := by
  cases a with
  | carrier b x => exact absurd rfl (ha b x)
  | object id text method => exact hmethod id text method rfl
  | only id content =>
    have hw := ((World.Grows.refl w).entering (.holding { values := [only id content] })).entering
      (.holding f.holds)
    exact .holding _ (.holding _ (hf content _ hw))
  | mute => exact .query_bind (.throw _ _)
  | _ => exact .throw _ _

theorem resolves_of_ne_carrier {a : Value} (ha : ∀ b x, a ≠ .carrier b x)
    (hmethod : ∀ id text method, a = .object id text method → a.Resolves c w) : a.Resolves c w :=
  fun f w' hw hf => stops_bindByMethod ha
    (fun id text method h => hmethod id text method h f w' hw hf) hf

end Value

namespace Definition

variable {d : Definition} {v : Value} {y : Option Value}

/-- Bind stops if what it looks up does. -/
theorem Asks.stops (h : d.Asks c w v y) (hw : w.Grows w') (hy : ∀ u ∈ y, u.Resolves c w')
    {f : Callback} (hf : StopsFrom c w' f.code) : (d.table .bind v f).Stops c w' := by
  induction h generalizing w' f with
  | given v hd hbind hs =>
    rw [Seed.bind_of_definition? hd]
    exact hs.bind_of_not_looksUp hbind v f w' hw hf
  | lookup v hd hbind =>
    rw [Seed.bind_of_definition? hd, Seed.bind_of_looksUp hbind]
    exact hy v rfl f w' (.refl w') hf
  | plain hd hbind hv hmethod =>
    rw [Seed.bind_of_definition? hd, Seed.bind_of_looksUp hbind]
    exact Value.stops_bindByMethod hv
      (fun id text method h => hmethod id text method h f w' hw hf) hf
  | kept hd hbind _ ih =>
    rw [Seed.table_given hd .bind hbind]
    exact ih hw hy hf
  | flat hd hinner _ ih =>
    obtain ⟨g, hbind, hg⟩ := hd.bind
    rw [hbind]
    exact ih hw hy (hg c w' f.code (hinner.mono hw) hf)
  | @own brand id inner d v x y hd hx hinner _ ih =>
    rw [bind_of_carrier hd, Packing.bindWith, Packing.unpack_of_inner? hx]
    refine .holding_bind (.pure x _) fun u w₁ hu => ?_
    obtain ⟨heq, rfl⟩ := hu.unique (.done (.ok x) _)
    cases heq
    exact (ih hw hy (hf.bind (hinner.mono hw).unpack)).bind fun _ w₂ _ => .pure _ w₂
  | @foreign brand id inner d v hd hx hinner _ ih =>
    have hunpack : StopsFrom c w' (inner.packing brand).unpack := (hinner.mono hw).unpack
    have hheld := (World.Grows.refl w').entering (.holding f.holds)
    rw [bind_of_carrier hd, Packing.bindWith]
    refine .holding_bind (hunpack v _ hheld) fun u w₁ hu => ?_
    rcases Packing.unpack_foreign hx with ⟨promote, hpromote, heq⟩ | ⟨-, e, heq⟩
    · obtain ⟨hcoerce, rfl⟩ := coercion_packing hpromote
      rw [heq] at hu
      have hgrows := (hheld.trans hu.grows).leaving (.holding f.holds) w'.toFrame
      exact (ih _ u w₁ hcoerce hu (hw.trans hgrows) (fun x hx => absurd hx (Option.not_mem_none x))
        ((hf.bind hunpack).mono hgrows)).bind fun _ w₂ _ => .pure _ w₂
    · rw [heq] at hu
      cases (hu.unique (.done _ _)).1

/-- Only the value, or what is in it, is looked up. -/
theorem Asks.mem_nested {u : Value} (h : d.Asks c w v (some u)) : u ∈ v.nested := by
  generalize hy : some u = y at h
  induction h with
  | given | plain | foreign => cases hy
  | lookup =>
    cases hy
    exact u.mem_nested_self
  | kept _ _ _ ih => exact ih hy
  | flat _ _ _ ih => exact ih hy
  | @own brand id inner d v x y _ hx _ _ ih =>
    cases v with
    | carrier b inner =>
      obtain rfl : inner = x := by
        unfold Packing.inner? at hx
        split at hx <;> simp_all
      exact List.mem_cons_of_mem _ (ih hy)
    | _ => cases hx

/-- Where what bind looks up exhausts a budget, bind does. -/
theorem Asks.exhausts {u : Value} (h : d.Asks c w v (some u)) {P : World → Prop} {n : Nat}
    (hu : ∀ f w', P w' → (u.bindByMethod f).run c n w' = .halted .exhausted) (f : Callback)
    (hw : P w') : (d.table .bind v f).run c n w' = .halted .exhausted := by
  generalize hy : some u = y at h
  induction h generalizing f with
  | given | plain | foreign => cases hy
  | lookup v hd hbind =>
    cases hy
    rw [Seed.bind_of_definition? hd, Seed.bind_of_looksUp hbind]
    exact hu f w' hw
  | kept hd hbind _ ih =>
    rw [Seed.table_given hd .bind hbind]
    exact ih f hy
  | flat hd _ _ ih =>
    obtain ⟨g, hbind, -⟩ := hd.bind
    rw [hbind]
    exact ih _ hy
  | @own brand id inner d v x y hd hx _ _ ih =>
    have hrun := ih ((inner.packing brand).unpacking f) hy
    rw [bind_of_carrier hd, Packing.bindWith, Packing.unpack_of_inner? hx, Prog.run_bind,
      Prog.holding, Prog.run_inside]
    change ((inner.packing brand).packed _).run c n w' = _
    rw [Packing.packed, Prog.run_bind, hrun]
    rfl

end Definition

/-! ## What is built -/

namespace Seed

variable {s : Seed} {d : Definition} {c₀ c₁ : Catalog}

/-- What is built has at most one carrier, of its own brand. -/
theorem flat_of_build {o : Options} (h : s.build o c₀ = (.ok d, c₁)) :
    ∃ (base e : Definition) (id : DefId), s.definition? id = some base ∧ e.FlatOn base ∧
      (o.carrier = none → d.FlatOn e) ∧
      ∀ name, o.carrier = some name → ∃ (b : Brand) (i : DefId) (m : Definition),
        ((e.packing b).seed e).definition? i = some m ∧ d.FlatOn m ∧ d.carrierBrand? = some b := by
  have hlayers {e : Definition} {brand : Option Brand} {c c' : Catalog}
      (h : e.withLayers o brand c = (.ok d, c')) :
      ∃ m c₂, e.carried brand c = (.ok m, c₂) ∧ d.FlatOn m := by
    obtain ⟨m, c₂, m', c₃, c₄, hcarried, hcoercing, hcontext, -⟩ :=
      Definition.stages_of_withLayers h
    exact ⟨m, c₂, hcarried, .trans (.of_puts (Layer.puts_of_withContext hcontext) nofun)
      (.of_coercing hcoercing)⟩
  obtain ⟨d₀, c₂, e, c₃, brand, c₄, hcomplete, hescaping, hbrand, h⟩ := stages_of_build h
  obtain ⟨base, id, mode, hbase, hputs⟩ := puts_of_complete hcomplete
  obtain ⟨m, c₅, hcarried, hm⟩ := hlayers h
  have he : e.FlatOn base := .trans (.of_escaping hescaping) (.of_puts hputs nofun)
  refine ⟨base, e, id, hbase, he, fun hcarrier => ?_, fun name hcarrier => ?_⟩
  · rw [hcarrier] at hbrand
    subst hbrand
    cases hcarried
    exact hm
  · rw [hcarrier] at hbrand
    subst hbrand
    obtain ⟨i, hd⟩ := Definition.definition?_of_withCarrier hcarried
    exact ⟨_, i, m, hd, hm, (Definition.wraps_of_withLayers h).1⟩

/-- What the bind of a definition that was built looks up: nothing, if its seed was given one;
otherwise what is in the carrier, if it has one of its own; otherwise the value itself. -/
theorem asks_build {o : Options} (hs : s.Stops c w) (h : s.build o c₀ = (.ok d, c₁)) :
    (s.looksUp = false → ∀ v, d.Asks c w v none) ∧
    (s.looksUp = true → ∀ name, o.carrier = some name →
      ∃ b, d.carrierBrand? = some b ∧ ∀ x, d.Asks c w (.carrier b x) (some x)) ∧
    (s.looksUp = true → o.carrier = none → ∀ v, d.Asks c w v (some v)) := by
  obtain ⟨base, e, id, hbase, he, hnone, hsome⟩ := flat_of_build h
  have hprompt : base.Prompt c w := prompt hbase hs.pure hs.coerce
  refine ⟨fun hbind v => ?_, fun hbind name hcarrier => ?_, fun hbind hcarrier v => ?_⟩
  · have hgiven (v : Value) : e.Asks c w v none := .flat he hprompt (.given v hbase hbind hs)
    cases hcarrier : o.carrier with
    | none => exact .flat (hnone hcarrier) (he.prompt hprompt) (hgiven v)
    | some name =>
      obtain ⟨b, i, m, hm, hd, -⟩ := hsome name hcarrier
      refine .flat hd ((he.prompt hprompt).carrier hm) ?_
      cases hx : (e.packing b).inner? v with
      | some x => exact .own hm hx (he.prompt hprompt) (hgiven x)
      | none => exact .foreign hm hx (he.prompt hprompt) fun _ u _ _ _ => hgiven u
  · obtain ⟨b, i, m, hm, hd, hbrand⟩ := hsome name hcarrier
    refine ⟨b, hbrand, fun x => .flat hd ((he.prompt hprompt).carrier hm) ?_⟩
    have hx : (e.packing b).inner? (.carrier b x) = some x := Packing.inner?_pack _ x
    exact .own hm hx (he.prompt hprompt) (.flat he hprompt (.lookup x hbase hbind))
  · exact .flat (hnone hcarrier) (he.prompt hprompt)
      (.flat he hprompt (.lookup v hbase hbind))

end Seed

end EffectLayers
