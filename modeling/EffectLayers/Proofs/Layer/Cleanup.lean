import EffectLayers.Proofs.Control.Escaping
import EffectLayers.Proofs.Layer.Laws
import EffectLayers.Proofs.Layer.Stack

/-!
# Cleanups

A cleanup runs once, whatever the outcome before it. If it faults, so does the whole; if it ends
with an exception or an escape, that is the outcome; else the outcome before it is kept.

## Main definitions

* `Encoding.IsOutcome`, `Encoding.pending`: the effect values of each representation, and those
  that are exceptions or escapes.
* `Encoding.last`: which of two outcomes is kept.
* `Encoding.Cleans`: the cleanup of a definition runs once and keeps the last outcome.
* `Effects.Controlled`: the ready-made effects with escape control.

## Main statements

* `Encoding.cleans_threaded`, `Encoding.Cleans.native`: both ways of escape control do so.
* `Effects.Controlled.cleanup_once`: and so does everything that is built on them.
-/

namespace EffectLayers

open Prog.Once (Translates)

namespace Encoding

/-- The effect values: any value if outcomes are represented by themselves, else `Ok` and `Err`. -/
def IsOutcome : Encoding → Value → Prop
  | direct, _ => True
  | tagged, v => Effects.isOutcome v = true

/-- Whether an effect value is an exception or an escape. -/
def pending : Encoding → Value → Bool
  | direct, v => v.isSignal
  | tagged, v => (v.arg? "Err").isSome

/-- The outcome of a cleanup that ended with `b` after the outcome `a`. -/
def last (enc : Encoding) (a b : Value) : Value := if enc.pending b then b else a

theorem ok_or_err_of_isOutcome {v : Value} (h : tagged.IsOutcome v) :
    ∃ u, v = .ctor "Ok" u ∨ v = .ctor "Err" u := by
  have hsome : (v.arg? "Ok").isSome = true ∨ (v.arg? "Err").isSome = true := by
    simpa [IsOutcome, Effects.isOutcome] using h
  cases v with
  | ctor name u =>
    refine ⟨u, ?_⟩
    by_cases hok : name = "Ok"
    · exact .inl (hok ▸ rfl)
    · by_cases herr : name = "Err"
      · exact .inr (herr ▸ rfl)
      · simp [Value.arg?, hok, herr] at hsome
  | _ => simp [Value.arg?] at hsome

/-- The definition leaves effect values as they are, and its cleanups run once, after which the
last outcome is kept. -/
structure Cleans (enc : Encoding) (d : Definition) : Prop where
  fixes : d.Fixes enc.IsOutcome
  cleanup : ∀ c host a (f : Action), enc.IsOutcome a →
    (d.table .cleanup a f).Once c host none f.code
      (Translates enc.IsOutcome (fun n => n) (enc.last a))

end Encoding

/-! ## Escape control -/

section

variable {inner d : Definition} {i j : DefId}

/-- Signals threaded through plain values: the cleanup is a continuation of the value. -/
theorem Encoding.cleans_threaded (hinner : Effects.identity.definition? i = some inner)
    (hd : (Escape.seed inner).definition? j = some d) : direct.Cleans d := by
  obtain rfl := Option.some.inj hinner
  obtain rfl := Option.some.inj hd
  constructor
  case fixes => exact fun _ a _ => .refl _
  case cleanup =>
    intro c host a f _
    refine Prog.Once.holding _ ?_
    refine ((Prog.Once.refl f.code).holding { values := [a] }).answering.translate fun n _ => ?_
    -- The result of the cleanup is mapped by a callback that has its answer at hand.
    exact .inside_done _ (.ok _)

theorem Effects.const_of_either (hd : either.definition? i = some d) {v n : Value}
    (hn : Encoding.tagged.IsOutcome n) :
    (d.table .const n v).Alike (pure (Encoding.tagged.last (.ctor "Ok" v) n)) := by
  obtain rfl := Option.some.inj hd
  obtain ⟨u, rfl | rfl⟩ := Encoding.ok_or_err_of_isOutcome hn
  · exact (Prog.Alike.inside_done _ (.ok _)).holding _ |>.trans (.inside_done _ (.ok _))
  · exact .refl _

/-- The exception is raised again, unless the cleanup ended with another one. -/
theorem Effects.again_of_either (hd : either.definition? i = some d) {e n : Value}
    (hn : Encoding.tagged.IsOutcome n) :
    (d.table .bind n ⟨fun w => Prog.keeping [w] (d.table .raise e), { values := [e] }⟩).Alike
      (pure (Encoding.tagged.last (.ctor "Err" e) n)) := by
  obtain rfl := Option.some.inj hd
  obtain ⟨u, rfl | rfl⟩ := Encoding.ok_or_err_of_isOutcome hn
  · have hraise : (Prog.keeping [u] (pure (.ctor "Err" e))).Alike (pure (Value.ctor "Err" e)) :=
      .inside_done _ (.ok _)
    have hcall := (hraise.holding { values := [e] }).trans (.inside_done _ (.ok _))
    exact (hcall.holding { values := [.ctor "Ok" u] }).trans (.inside_done _ (.ok _))
  · exact .refl _

/-- The derived cleanup runs in the handler of `Err`, or continues `Ok`. -/
theorem Encoding.cleans_either (hd : Effects.either.definition? i = some d) : tagged.Cleans d := by
  have hconst (v n : Value) := Effects.const_of_either hd (v := v) (n := n)
  have hcleanup := Seed.cleanup_of_definition? hd rfl
  constructor
  case fixes =>
    obtain rfl := Option.some.inj hd
    intro _ a ha
    have hcoerce : (if Effects.isOutcome a then a else .ctor "Ok" a) = a := if_pos ha
    exact .of_eq (congrArg pure hcoerce)
  case cleanup =>
    intro c host a f ha
    rw [hcleanup a f]
    obtain ⟨v, rfl | rfl⟩ := ok_or_err_of_isOutcome ha
    · -- The handler is not reached: the cleanup continues the value.
      have hcontinue : Prog.Once c host none
          (d.table .bind (.ctor "Ok" v) (f.map fun code v => do
            d.table .const (← Prog.keeping [v] code) v)) f.code
          (Translates tagged.IsOutcome (fun n => n) (tagged.last (.ctor "Ok" v))) := by
        obtain rfl := Option.some.inj hd
        refine Prog.Once.holding _ (.holding _ ?_)
        exact ((Prog.Once.refl f.code).holding { values := [v] }).answering.translate
          fun n hn => hconst v n hn
      have hskipped (g : Callback) :
          (Prog.holding f.holds (d.table .handle (.ctor "Ok" v) g)).Alike
            (pure (.ctor "Ok" v)) := by
        obtain rfl := Option.some.inj hd
        exact .inside_done _ (.ok _)
      refine hcontinue.alike (Prog.Alike.symm ?_)
      exact (hskipped _).bind_left _
    · -- The handler runs the cleanup, and what it ends with is an exception in any case.
      have hhandled : Prog.Once c host none
          (Prog.holding f.holds <| d.table .handle (.ctor "Err" v) <| f.map fun code e => do
            d.table .bind (← Prog.keeping [e] code)
              ⟨fun w => Prog.keeping [w] (d.table .raise e), { values := [e] }⟩) f.code
          (Translates tagged.IsOutcome (fun n => n) (tagged.last (.ctor "Err" v))) := by
        have hagain (n : Value) := Effects.again_of_either hd (e := v) (n := n)
        obtain rfl := Option.some.inj hd
        refine Prog.Once.holding _ (.holding _ (.holding _ ?_))
        exact ((Prog.Once.refl f.code).holding { values := [v] }).answering.translate
          fun n hn => hagain n hn
      refine hhandled.translate fun n hn => ?_
      obtain ⟨u, rfl | rfl⟩ := ok_or_err_of_isOutcome hn
      all_goals
        obtain rfl := Option.some.inj hd
        exact .refl _

/-- Where the definition has handlers of its own, escape control keeps its cleanup. -/
theorem Encoding.Cleans.native {enc : Encoding} (h : enc.Cleans inner)
    (hinner : inner.supplies .handle = true) (hd : (Escape.seed inner).definition? j = some d) :
    enc.Cleans d := by
  have hcleanup : d.table .cleanup = inner.table .cleanup :=
    Definition.table_native hinner hd .cleanup rfl
  rw [Escape.seed_of_handles hinner] at hd
  constructor
  case fixes =>
    have hkept := Definition.kept_of_definition? "escape" .coerce hd rfl rfl
    exact Definition.fixes_of_kept hkept h.fixes
  case cleanup =>
    rw [hcleanup]
    exact h.cleanup

/-- The loops that iterate give what the definition that they extend was given, but for two
operations. -/
theorem Effects.looping_eq_ok {s : Seed} {c c' : Catalog} (hs : looping c = (.ok s, c')) :
    ∃ inner escaped i k, identity.definition? i = some inner ∧
      (Escape.seed inner).definition? k = some escaped ∧ s.reinstall = none ∧
      ∀ op, op ≠ .forPar → op ≠ .iterate → escaped.supplies op = true →
        s.ops op = some (escaped.table op) := by
  obtain ⟨inner, c₁, hcomplete, hs⟩ := Assembly.bind_eq_ok.mp hs
  obtain ⟨escaped, c₂, hescape, hs⟩ := Assembly.bind_eq_ok.mp hs
  obtain ⟨i, hinner⟩ := Seed.definition?_of_complete rfl hcomplete
  obtain ⟨k, hescaped⟩ := Definition.definition?_of_withEscapeControl hescape
  refine ⟨inner, escaped, i, k, hinner, hescaped, ?_⟩
  clear hcomplete hescape
  cases hs
  obtain rfl := Option.some.inj hinner
  obtain rfl := Option.some.inj hescaped
  refine ⟨rfl, fun op hforPar hiterate hop => ?_⟩
  rw [Seed.ops_set_of_ne _ _ hiterate, Seed.ops_set_of_ne _ _ hforPar]
  exact if_pos hop

theorem Effects.reinstall_looping {s : Seed} {c c' : Catalog} (hs : looping c = (.ok s, c')) :
    s.reinstall = none := by
  obtain ⟨-, -, -, -, -, -, hreinstall, -⟩ := looping_eq_ok hs
  exact hreinstall

/-- The loops that iterate have the control operations of plain values with escape control. -/
theorem Effects.table_looping {s : Seed} {c c' : Catalog} (hs : looping c = (.ok s, c'))
    (hd : s.definition? j = some d) :
    ∃ inner escaped i k, identity.definition? i = some inner ∧
      (Escape.seed inner).definition? k = some escaped ∧
      ∀ op ∈ [Operation.coerce, .raise, .bind, .map, .handle, .cleanup],
        d.supplies op = true ∧ d.table op = escaped.table op := by
  obtain ⟨inner, escaped, i, k, hinner, hescaped, -, hops⟩ := looping_eq_ok hs
  refine ⟨inner, escaped, i, k, hinner, hescaped, fun op hop => ?_⟩
  have hkept : op ≠ .forPar ∧ op ≠ .iterate ∧ escaped.supplies op = true := by
    obtain rfl := Option.some.inj hinner
    obtain rfl := Option.some.inj hescaped
    simp only [List.mem_cons, List.not_mem_nil, or_false] at hop
    rcases hop with rfl | rfl | rfl | rfl | rfl | rfl <;> exact ⟨nofun, nofun, rfl⟩
  obtain ⟨hforPar, hiterate, hsupplies⟩ := hkept
  exact Seed.table_of_definition? hd (hops op hforPar hiterate hsupplies)

theorem Encoding.cleans_looping {s : Seed} {c c' : Catalog} (hs : Effects.looping c = (.ok s, c'))
    (hd : s.definition? j = some d) : direct.Cleans d ∧ d.supplies .handle = true := by
  obtain ⟨inner, escaped, i, k, hinner, hescaped, hgiven⟩ := Effects.table_looping hs hd
  have hcleans := cleans_threaded hinner hescaped
  have hcoerce : escaped.supplies .coerce = true := by
    obtain rfl := Option.some.inj hinner
    obtain rfl := Option.some.inj hescaped
    rfl
  refine ⟨⟨fun _ a ha => ?_, ?_⟩, (hgiven .handle (by decide)).1⟩
  · rw [(hgiven .coerce (by decide)).2]
    exact hcleans.fixes hcoerce a ha
  · rw [(hgiven .cleanup (by decide)).2]
    exact hcleans.cleanup

end

/-! ## Under every layer -/

/-- Under the layers a cleanup runs once, with the definition installed if the layers do so. -/
theorem Definition.Wraps.once_cleanup {d e : Definition} {W : Wrapping} {enc : Encoding}
    (hW : d.Wraps e W) (he : enc.Cleans e) {c : Catalog} {host : DefId}
    (hx : ∀ a ∈ W.installer, a.target = host) (hhost : host ∈ c.lineage host) {a : Value}
    (ha : enc.IsOutcome a) (f : Action) :
    (d.table .cleanup (W.wrap a) f).Once c host (W.installer.map (·.target)) f.code
      (Translates enc.IsOutcome W.wrap fun n => W.wrap (enc.last a n)) := by
  have henter := W.once_enter hx hhost (hW.returns _ he.fixes) f.code
  have hcleanup := (he.cleanup c host a (f.map W.enter) ha).translating henter
  exact (Wrapping.once_wrapped hcleanup).alike (hW.cleanup a f).symm

namespace Effects

/-- The ready-made effects with escape control and how they represent outcomes: identity and
either with the layer on top, and the loops that iterate, which have it beneath. -/
inductive Controlled (o : Options) : Seed → Encoding → Prop where
  | identity (h : o.escape = true) : Controlled o identity .direct
  | either (h : o.escape = true) : Controlled o either .tagged
  | looping {s : Seed} {c c' : Catalog} (h : Effects.looping c = (.ok s, c')) :
      Controlled o s .direct

namespace Controlled

variable {o : Options} {s : Seed} {enc : Encoding} {c c' c₁ : Catalog} {d₀ d e : Definition}

/-- The three ways of escape control agree on cleanups. -/
theorem cleans (h : Controlled o s enc) (hd₀ : s.complete c = (.ok d₀, c₁))
    (he : d₀.escaping o.escape c₁ = (.ok e, c')) : enc.Cleans e := by
  cases h with
  | identity h =>
    rw [h] at he
    obtain ⟨i, hd₀⟩ := Seed.definition?_of_complete rfl hd₀
    obtain ⟨j, he⟩ := Definition.definition?_of_withEscapeControl he
    exact Encoding.cleans_threaded hd₀ he
  | either h =>
    rw [h] at he
    obtain ⟨i, hd₀⟩ := Seed.definition?_of_complete rfl hd₀
    obtain ⟨j, he⟩ := Definition.definition?_of_withEscapeControl he
    refine (Encoding.cleans_either hd₀).native ?_ he
    exact (Seed.supplies_of_definition? hd₀ .handle).trans rfl
  | looping h =>
    have hreinstall := Effects.reinstall_looping h
    obtain ⟨i, hd₀⟩ := Seed.definition?_of_complete hreinstall hd₀
    obtain ⟨hcleans, hhandle⟩ := Encoding.cleans_looping h hd₀
    cases hescape : o.escape with
    | false =>
      rw [hescape] at he
      cases he
      exact hcleans
    | true =>
      rw [hescape] at he
      obtain ⟨j, he⟩ := Definition.definition?_of_withEscapeControl he
      exact hcleans.native hhandle he

/-- A cleanup after the outcome `a` runs once, with the definition installed if the context is full,
and nothing else happens that anybody notices. If it faults, so does the whole; if it ends with
an exception or an escape, so does the whole; otherwise `a` is kept. -/
theorem cleanup_once (h : Controlled o s enc) (hbuild : s.build o c = (.ok d, c'))
    (hknown : d.KnownIn c₁) {a : Value} (ha : enc.IsOutcome a) (f : Action) :
    (d.table .cleanup (o.packed d a) f).Once c₁ d.id ((o.installer d).map (·.target)) f.code
      (Translates enc.IsOutcome (o.packed d) fun n =>
        o.packed d (if enc.pending n then n else a)) := by
  obtain ⟨d₀, c₂, e, c₃, W, hd₀, he, hW, hwrap, hinstaller⟩ := Seed.build_wraps hbuild
  rw [← hwrap, ← hinstaller]
  refine hW.once_cleanup (h.cleans hd₀ he) (fun x hx => ?_) (Definition.mem_lineage hknown) ha f
  rw [hinstaller] at hx
  exact Options.target_of_installer hx

/-- Under every layer, a cleanup that logs runs once after an escape. -/
theorem cleanup_once_after_escape :
    let o : Options := ⟨true, some "wrapped", true, .full, .home⟩
    let escape : Value := .ctor "Err" (.signal (.int 1) (.scope 7))
    ∃ d c, Effects.either.build o .empty = (.ok d, c) ∧
      let logging : Prog Value := do
        Prog.query (.log (.int 2))
        return o.packed d (.ctor "Ok" .unit)
      (d.table .cleanup (o.packed d escape) ⟨logging, { }⟩).Once c d.id (some d.id) logging
        (Translates (fun n => isOutcome n = true) (o.packed d) fun n =>
          o.packed d (if (n.arg? "Err").isSome then n else escape)) := by
  intro o escape
  obtain ⟨d, c, hbuild⟩ : ∃ d c, Effects.either.build o .empty = (.ok d, c) := ⟨_, _, rfl⟩
  refine ⟨d, c, hbuild, ?_⟩
  exact cleanup_once (.either rfl) hbuild (Seed.known_of_build hbuild) (a := escape) rfl _

end Controlled

end Effects

end EffectLayers
