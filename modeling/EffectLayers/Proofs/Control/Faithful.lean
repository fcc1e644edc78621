import EffectLayers.Proofs.Control.Behaves

/-!
# Definitions that implement control

A definition is faithful if each of its control operations has the behaviour that control
programs mean, its effect values being encodings of exits. Faithfulness is kept by every layer
that is put on top.

## Main definitions

* `Exit.caughtAt`: what a block makes of the escapes that carry its tag.
* `Definition.Faithful`: the operations of a definition implement control.

## Main statements

* `Definition.Faithful.carrier`, `Definition.Faithful.coercion`, `Definition.Faithful.context`:
  the layers keep it.
-/

namespace EffectLayers

/-- How a block with the tag `t` ends: an escape with its tag becomes a value. -/
def Exit.caughtAt (t : ScopeId) : Exit ScopeId → Exit ScopeId
  | escape s d => if s = t then value d else escape s d
  | x => x

open Behaviour in
/-- With `host` installed, the control operations of a definition implement control: its effect
values encode exits by `enc`, what `run` leaves encodes them by `out`. -/
structure Definition.Faithful (c : Catalog) (host : DefId) (enc out : Exit ScopeId → Value)
    (d : Definition) : Prop where
  raises : d.supplies .raise = true
  coerces : d.supplies .coerce = true
  coerce : ∀ x, d.table .coerce (enc x) = Pure.pure (enc x)
  pure : ∀ b w (v : Datum),
    Prog.Behaves c host b w enc (d.table .pure v.value) (Pure.pure (.value v))
  raise : ∀ b w (v : Datum),
    Prog.Behaves c host b w enc (d.table .raise v.value) (Pure.pure (.exception v))
  bind : ∀ b w x (f : Callback) φ,
    (∀ v : Datum, Prog.Behaves c host b w enc (f.code v.value) (φ v)) →
    Prog.Behaves c host b w enc (d.table .bind (enc x) f) (x.onValue φ)
  handle : ∀ b w x (f : Callback) φ,
    (∀ v : Datum, Prog.Behaves c host b w enc (f.code v.value) (φ v)) →
    Prog.Behaves c host b w enc (d.table .handle (enc x) f) (x.onException φ)
  cleanup : ∀ b w x (f : Action) φ,
    Prog.Behaves c host b w enc f.code φ →
    Prog.Behaves c host b w enc (d.table .cleanup (enc x) f) (φ.map x.cleanedBy)
  /-- The body behaves, for any tag that is fresh and any callback that escapes to it. -/
  block : ∀ b w (body : Body) (φ : ScopeId → Behaviour (Exit ScopeId)) ψ,
    (∀ t w₁, w.Grows w₁ → w.nextScope ≤ t → t < w₁.nextScope → ∀ k : Callback,
      (∀ b (v : Datum), Prog.Behaves c host b w₁ enc (k.code v.value) (Pure.pure (.escape t v))) →
      Prog.Behaves c host b w₁ enc (body.code k) (φ t)) →
    (∀ t, w.nextScope ≤ t → (φ t).map (Exit.caughtAt t) = ψ) →
    Prog.Behaves c host b w enc (d.table .block body) ψ
  forPar : ∀ b w (test : Test) (body step : Callback) (v : Datum) τ φ σ,
    (∀ v : Datum, Prog.Behaves c host b w (fun t : Bool => t) (test.code v.value) (τ v)) →
    (∀ v : Datum, Prog.Behaves c host b w enc (body.code v.value) (φ v)) →
    (∀ v : Datum, Prog.Behaves c host b w Datum.value (step.code v.value) (σ v)) →
    Prog.Behaves c host b w enc (d.table .forPar test body step v.value) (loop τ φ σ b v)
  run : ∀ b w (f : Action) φ,
    Prog.Behaves c host b w enc f.code φ → Prog.Behaves c host b w out (d.table .run f) φ

namespace Definition.Faithful

variable {c : Catalog} {host : DefId} {enc out : Exit ScopeId → Value} {inner : Definition}

/-! ## The carrier layer -/

section Carrier

variable {b : Nat} {w₀ : World} {κ : Type} {enc : κ → Value} (w : Packing)

theorem behaves_packed {p : Prog Value} {φ : Behaviour κ}
    (h : Prog.Behaves c host b w₀ enc p φ) :
    Prog.Behaves c host b w₀ (w.pack ∘ enc) (w.packed p) φ :=
  h.encoded fun _ => rfl

theorem behaves_unpacked {p : Prog Value} {φ : Behaviour κ}
    (h : Prog.Behaves c host b w₀ (w.pack ∘ enc) p φ) :
    Prog.Behaves c host b w₀ enc (w.unpacked p) φ :=
  h.encoded fun _ => w.unpack_pack _

theorem behaves_bindWith {α : Type 1} {bind : Value → Closure α → Prog Value} {v : Value}
    {f : Closure α} {φ : Behaviour κ} (h : Prog.Behaves c host b w₀ enc (bind v f) φ) :
    Prog.Behaves c host b w₀ (w.pack ∘ enc) (w.bindWith bind (w.pack v) f) φ := by
  have hv : Prog.Behaves c host b w₀ (fun _ : Unit => v) (w.unpack (w.pack v)) (Pure.pure ()) :=
    w.unpack_pack v ▸ Prog.Behaves.pure ()
  exact (hv.holding f.holds).skip (behaves_packed w h)

end Carrier

/-- Carriers keep what is implemented; `run` leaves what it left before. -/
theorem carrier (h : inner.Faithful c host enc out) (brand : Brand) {d : Definition} {id : DefId}
    (hd : ((inner.packing brand).seed inner).definition? id = some d) :
    d.Faithful c host ((inner.packing brand).pack ∘ enc) out := by
  obtain rfl := Option.some.inj hd
  let w := inner.packing brand
  have hw : w.coercion = some (inner.table .coerce) := by simp [w, packing, h.coerces]
  have hcoerce (x : Exit ScopeId) : w.coerce (inner.table .coerce) (w.pack (enc x)) =
      Pure.pure (w.pack (enc x)) :=
    w.coerce_pack _ _
  exact {
    raises := rfl
    coerces := by
      change (w.coercion.map w.coerce).isSome = true
      simp [hw]
    coerce := fun x => by
      change (w.coercion.map w.coerce).getD _ _ = _
      rw [hw]
      exact hcoerce x
    pure := fun b w₀ v => behaves_packed w (h.pure b w₀ v)
    raise := fun b w₀ v => behaves_packed w (h.raise b w₀ v)
    bind := fun b w₀ x f φ hf => behaves_bindWith w <|
      h.bind b w₀ x (w.unpacking f) φ fun v => behaves_unpacked w (hf v)
    handle := fun b w₀ x f φ hf => behaves_bindWith w <|
      h.handle b w₀ x (w.unpacking f) φ fun v => behaves_unpacked w (hf v)
    cleanup := fun b w₀ x f φ hf => behaves_bindWith w <|
      h.cleanup b w₀ x (f.map w.unpacked) φ (behaves_unpacked w hf)
    block := fun b w₀ body φ ψ hbody hψ => by
      refine behaves_packed w (h.block b w₀ (w.blockBody body) φ ψ ?_ hψ)
      intro t w₁ hg ht ht' k hk
      refine behaves_unpacked w (hbody t w₁ hg ht ht' _ fun b v => ?_)
      exact behaves_packed w (hk b v)
    forPar := fun b w₀ test body step v τ φ σ ht hb hs => behaves_packed w <|
      h.forPar b w₀ test (w.unpacking body) step v τ φ σ ht
        (fun v => behaves_unpacked w (hb v)) hs
    run := fun b w₀ f φ hf => h.run b w₀ (f.map w.unpacked) φ (behaves_unpacked w hf) }

/-! ## The coercion layer -/

/-- What is an effect value already is coerced into itself. -/
theorem coercion (h : inner.Faithful c host enc out) {d : Definition} {id : DefId}
    (hd : (Coercion.seed inner).definition? id = some d) : d.Faithful c host enc out := by
  obtain rfl := Option.some.inj hd
  have hc {b : Nat} {w₀ : World} {p : Prog Value} {φ : Behaviour (Exit ScopeId)}
      (hp : Prog.Behaves c host b w₀ enc p φ) :
      Prog.Behaves c host b w₀ enc (do inner.table .coerce (← p)) φ :=
    hp.encoded h.coerce
  have hraises : (Coercion.seed inner).ops .raise = some (inner.table .raise) := by
    simp [Coercion.seed, Seed.keeping, Seed.keeps, h.raises]
  have hcoerces : (Coercion.seed inner).ops .coerce = some (inner.table .coerce) := by
    simp [Coercion.seed, Seed.keeping, Seed.keeps, h.coerces]
  exact {
    raises := by simp [Definition.supplies, Seed.supplies, hraises]
    coerces := by simp [Definition.supplies, Seed.supplies, hcoerces]
    coerce := fun x => by simp [Seed.table, hcoerces, h.coerce]
    pure := h.pure
    raise := fun b w₀ v => by simpa [Seed.table, Seed.raise, hraises] using h.raise b w₀ v
    bind := fun b w₀ x f φ hf => h.bind b w₀ x _ φ fun v => hc (hf v)
    handle := fun b w₀ x f φ hf => h.handle b w₀ x _ φ fun v => hc (hf v)
    cleanup := fun b w₀ x f φ hf => h.cleanup b w₀ x _ φ (hc hf)
    block := fun b w₀ body φ ψ hbody hψ =>
      h.block b w₀ _ φ ψ (fun t w₁ hg ht ht' k hk => hc (hbody t w₁ hg ht ht' k hk)) hψ
    forPar := fun b w₀ test body step v τ φ σ ht hb hs =>
      h.forPar b w₀ test _ step v τ φ σ ht (fun v => hc (hb v)) hs
    run := fun b w₀ f φ hf => h.run b w₀ _ φ (hc hf) }

/-! ## The context layer -/

theorem behaves_around {κ : Type} {enc : κ → Value} {b : Nat} {w₀ : World} {p : Prog Value}
    {φ : Behaviour κ} (name : String) (hhost : host ∈ c.lineage host)
    (h : Prog.Behaves c host b w₀ enc p φ) :
    Prog.Behaves c host b w₀ enc (Installer.around ⟨name, host⟩ p) φ :=
  Prog.Behaves.alive hhost h.installed

/-- Installing the definition that is installed already changes nothing. -/
theorem context (h : inner.Faithful c host enc out) (hhost : host ∈ c.lineage host)
    {mode : ContextMode} {d : Definition} {id : DefId}
    (hd : (inner.contextSeed mode host).definition? id = some d) : d.Faithful c host enc out := by
  have hpure : (inner.contextSeed mode host).ops .pure = some (inner.table .pure) := by
    cases mode <;> rfl
  simp only [Seed.definition?, hpure, Option.map_some, Option.some.injEq] at hd
  subst hd
  have ha {κ : Type} {enc : κ → Value} {b : Nat} {w₀ : World} {p : Prog Value} {φ : Behaviour κ}
      (hp : Prog.Behaves c host b w₀ enc p φ) :=
    behaves_around (inner.name ++ "+context") hhost hp
  have hraises : (inner.contextSeed mode host).ops .raise = some (inner.table .raise) := by
    cases mode <;> simp [contextSeed, Installer.ops, Installer.wrapped, Installer.forwards,
      Seed.keeping, Seed.keeps, h.raises]
  have hcoerces : (inner.contextSeed mode host).ops .coerce = some (inner.table .coerce) := by
    cases mode <;> simp [contextSeed, Installer.ops, Installer.wrapped, Installer.forwards,
      Seed.keeping, Seed.keeps, h.coerces]
  exact {
    raises := by simp [Definition.supplies, Seed.supplies, hraises]
    coerces := by simp [Definition.supplies, Seed.supplies, hcoerces]
    coerce := fun x => by simp [Seed.table, hcoerces, h.coerce]
    pure := h.pure
    raise := fun b w₀ v => by simpa [Seed.table, Seed.raise, hraises] using h.raise b w₀ v
    bind := fun b w₀ x f φ hf => by
      cases mode with
      | off | runOnly => exact h.bind b w₀ x f φ hf
      | full => exact h.bind b w₀ x _ φ fun v => ha (hf v)
    handle := fun b w₀ x f φ hf => by
      cases mode with
      | off | runOnly => exact h.handle b w₀ x f φ hf
      | full => exact h.handle b w₀ x _ φ fun v => ha (hf v)
    cleanup := fun b w₀ x f φ hf => by
      cases mode with
      | off | runOnly => exact h.cleanup b w₀ x f φ hf
      | full => exact h.cleanup b w₀ x _ φ (ha hf)
    block := fun b w₀ body φ ψ hbody hψ => by
      cases mode with
      | off | runOnly => exact h.block b w₀ body φ ψ hbody hψ
      | full =>
        exact h.block b w₀ _ φ ψ (fun t w₁ hg ht ht' k hk => ha (hbody t w₁ hg ht ht' k hk)) hψ
    forPar := fun b w₀ test body step v τ φ σ ht hb hs => by
      cases mode with
      | off | runOnly => exact h.forPar b w₀ test body step v τ φ σ ht hb hs
      | full => exact h.forPar b w₀ test _ step v τ φ σ ht (fun v => ha (hb v)) hs
    run := fun b w₀ f φ hf => by cases mode <;> exact h.run b w₀ _ φ (ha hf) }

end Definition.Faithful

end EffectLayers
