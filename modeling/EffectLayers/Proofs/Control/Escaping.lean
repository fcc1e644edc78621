import EffectLayers.Proofs.Control.Faithful

/-!
# The three ways to implement control

Signals threaded through plain values, exceptions as constructors, and loops that iterate: each
is a faithful definition.

## Main definitions

* `Encoding`: how exits are represented.

## Main statements

* `Definition.Faithful.threaded_identity`, `Definition.Faithful.native_either`,
  `Definition.Faithful.looping`.
-/

namespace EffectLayers

/-- How exits are represented. -/
inductive Encoding where
  /-- A value as itself, any other exit as a signal. -/
  | direct
  /-- A value as `Ok`, any other exit as `Err`. -/
  | tagged

/-- The effect value of an exit. -/
def Encoding.encode : Encoding → Exit ScopeId → Value
  | direct, .value d => d.value
  | direct, .exception d => .signal d.value .exception
  | direct, .escape t d => .signal d.value (.scope t)
  | tagged, .value d => .ctor "Ok" d.value
  | tagged, .exception d => .ctor "Err" d.value
  | tagged, .escape t d => .ctor "Err" (.signal d.value (.scope t))

/-- Exits are told apart: plain data is neither a signal nor an outcome. -/
theorem Encoding.encode_injective (e : Encoding) : Function.Injective e.encode := by
  intro x y h
  rcases x with ⟨v, hv⟩ | ⟨v, hv⟩ | ⟨t, v, hv⟩ <;> rcases y with ⟨u, hu⟩ | ⟨u, hu⟩ | ⟨s, u, hu⟩ <;>
    cases e <;> simp_all [encode]
  all_goals subst_vars; simp [Value.isPlain] at *

namespace Definition.Faithful

variable {c : Catalog} {host : DefId}

/-! ## Blocks and loops -/

section

variable {enc : Exit ScopeId → Value} {b : Nat} {w : World}

theorem behaves_caught {φ : Behaviour (Exit ScopeId)} {v payload : Value} {tag : Tag}
    {f : Value → Prog Value} {q : Prog Value} (hv : v.caught? tag = some payload)
    (h : Prog.Behaves c host b w enc (f payload) φ) :
    Prog.Behaves c host b w enc
      (match v.caught? tag with | some payload => f payload | none => q) φ := by
  rw [hv]
  exact h

theorem behaves_missed {φ : Behaviour (Exit ScopeId)} {v : Value} {tag : Tag}
    {f : Value → Prog Value} {q : Prog Value} (hv : v.caught? tag = none)
    (h : Prog.Behaves c host b w enc q φ) :
    Prog.Behaves c host b w enc
      (match v.caught? tag with | some payload => f payload | none => q) φ := by
  rw [hv]
  exact h

/-- A block whose handler sees every signal of its tag, and gives back every other exit. -/
theorem behaves_blockWith {send finish : Value → Prog Value}
    {catching : Value → Callback → Prog Value} {body : Body}
    {φ : ScopeId → Behaviour (Exit ScopeId)} {ψ : Behaviour (Exit ScopeId)}
    (hsend : ∀ t (v : Datum), send (.signal v.value (.scope t)) = Pure.pure (enc (.escape t v)))
    (hcatch : ∀ t w₁ x, Prog.Behaves c host b w₁ enc
      (catching (enc x)
        { code := fun v =>
            match v.caught? (.scope t) with
            | some payload => Prog.keeping [v] (finish payload)
            | none => send v })
      (Pure.pure (x.caughtAt t)))
    (hbody : ∀ t w₁, w.Grows w₁ → w.nextScope ≤ t → t < w₁.nextScope → ∀ k : Callback,
      (∀ b (v : Datum),
        Prog.Behaves c host b w₁ enc (k.code v.value) (Pure.pure (.escape t v))) →
      Prog.Behaves c host b w₁ enc (body.code k) (φ t))
    (hψ : ∀ t, w.nextScope ≤ t → (φ t).map (Exit.caughtAt t) = ψ) :
    Prog.Behaves c host b w enc (Escape.blockWith send catching finish body) ψ := by
  refine Prog.Behaves.holding _ (Prog.Behaves.freshScope fun t w₁ hg ht ht' => ?_)
  rw [← hψ t ht]
  refine Prog.Behaves.mapped (Prog.Behaves.holding _ (hbody t w₁ hg ht ht' _ fun b v => ?_))
    fun x => hcatch t w₁ x
  change Prog.Behaves c host b w₁ enc (send (.signal v.value (.scope t))) _
  rw [hsend t v]
  exact Prog.Behaves.pure _

variable {test : Test} {body step : Callback} {τ : Datum → Behaviour Bool}
  {φ : Datum → Behaviour (Exit ScopeId)} {σ : Datum → Behaviour Datum}

/-- The loop that nests each round in the one before, given how values are sequenced. -/
theorem behaves_forParFrom {bind : Value → Callback → Prog Value} {lift : Value → Prog Value}
    (hlift : ∀ v : Datum, Prog.Behaves c host b w enc (lift v.value) (Pure.pure (.value v)))
    (hbind : ∀ x (f : Callback) φ,
      (∀ v : Datum, Prog.Behaves c host b w enc (f.code v.value) (φ v)) →
      Prog.Behaves c host b w enc (bind (enc x) f) (x.onValue φ))
    (ht : ∀ v : Datum,
      Prog.Behaves c host b w (fun t : Bool => t) (test.code v.value) (τ v))
    (hb : ∀ v : Datum, Prog.Behaves c host b w enc (body.code v.value) (φ v))
    (hs : ∀ v : Datum, Prog.Behaves c host b w Datum.value (step.code v.value) (σ v))
    (n : Nat) (v : Datum) :
    Prog.Behaves c host b w enc (Seed.forParFrom bind lift test body step n v.value)
      (Behaviour.loop τ φ σ n v) := by
  induction n generalizing v with
  | zero => exact fun _ _ _ => rfl
  | succ n ih =>
    refine Prog.Behaves.bind (((ht v).holding _).holding _ |>.holding _) fun t => ?_
    cases t with
    | false => exact (hlift v).holding _
    | true =>
      refine Prog.Behaves.bind (((hb v).holding _).holding _ |>.holding _) fun x => ?_
      have hnext : Prog.Behaves c host b w enc
          (do Seed.forParFrom bind lift test body step n (← step.call v.value))
          (σ v >>= fun v => Behaviour.loop τ φ σ n v) :=
        ((hs v).holding _).bind ih
      have h := hbind x
        { code := fun u => Prog.keeping [u] do
            Seed.forParFrom bind lift test body step n (← step.call v.value)
          holds := { values := [v.value] } ++ (test.holds ++ body.holds ++ step.holds) }
        (fun _ => σ v >>= fun v => Behaviour.loop τ φ σ n v) fun u => hnext.holding _
      cases x <;> exact h

end

/-! ## Signals threaded through plain values -/

section Threaded

variable {inner d : Definition} {i j : DefId}

theorem threaded_identity (hinner : Effects.identity.definition? i = some inner)
    (hd : (Escape.seed inner).definition? j = some d) :
    d.Faithful c host Encoding.direct.encode Encoding.direct.encode := by
  obtain rfl := Option.some.inj hinner
  obtain rfl := Option.some.inj hd
  let enc := Encoding.direct.encode
  have hbind (b : Nat) (w : World) (x : Exit ScopeId) (f : Callback)
      (φ : Datum → Behaviour (Exit ScopeId))
      (hf : ∀ v : Datum, Prog.Behaves c host b w enc (f.code v.value) (φ v)) :
      Prog.Behaves c host b w enc
        ((f.map fun code v => if v.isSignal then Pure.pure v else code v).call (enc x))
        (x.onValue φ) := by
    refine Prog.Behaves.holding _ ?_
    cases x with
    | value v => simpa [enc, Encoding.encode, Exit.onValue] using hf v
    | exception v => exact Prog.Behaves.pure (Exit.exception v)
    | escape t v => exact Prog.Behaves.pure (Exit.escape t v)
  exact {
    raises := rfl
    coerces := rfl
    coerce := fun _ => rfl
    pure := fun b w v => Prog.Behaves.pure (Exit.value v)
    raise := fun b w v => Prog.Behaves.pure (Exit.exception v)
    bind := hbind
    handle := fun b w x f φ hf => by
      refine Prog.Behaves.holding _ ?_
      cases x with
      | value v => exact behaves_missed (v.caught?_value _) (Prog.Behaves.pure (Exit.value v))
      | exception v => exact (hf v).holding _
      | escape t v => exact Prog.Behaves.pure (Exit.escape t v)
    cleanup := fun b w x f φ hf => by
      refine Prog.Behaves.holding _ (Prog.Behaves.mapped (hf.holding _) fun y => ?_)
      refine Prog.Behaves.holding _ ?_
      cases y with
      | value v =>
        change Prog.Behaves c host b w enc
          (Pure.pure (if v.value.isSignal then v.value else enc x)) _
        rw [v.isSignal_value, if_neg Bool.false_ne_true]
        exact Prog.Behaves.pure x
      | exception v => exact Prog.Behaves.pure (Exit.exception v)
      | escape t v => exact Prog.Behaves.pure (Exit.escape t v)
    block := fun b w body φ ψ hbody hψ => by
      refine behaves_blockWith (fun _ _ => rfl) (fun t w₁ x => ?_) hbody hψ
      refine Prog.Behaves.holding _ ?_
      cases x with
      | value v => exact behaves_missed (v.caught?_value _) (Prog.Behaves.pure (Exit.value v))
      | exception v => exact Prog.Behaves.pure (Exit.exception v)
      | escape s v =>
        by_cases h : s = t
        · subst h
          have hx : (Exit.escape s v).caughtAt s = .value v := by simp [Exit.caughtAt]
          rw [hx]
          exact behaves_caught (if_pos rfl) ((Prog.Behaves.pure (Exit.value v)).holding _)
        · have hx : (Exit.escape s v).caughtAt t = .escape s v := by simp [Exit.caughtAt, h]
          have hs : ¬ Tag.scope s = Tag.scope t := fun e => h (Tag.scope.inj e)
          rw [hx]
          exact behaves_missed (if_neg hs) (Prog.Behaves.pure (Exit.escape s v))
    forPar := fun b w test body step v τ φ σ ht hb hs =>
      behaves_forParFrom (fun v => Prog.Behaves.pure (Exit.value v)) (hbind b w) ht hb hs b v
    run := fun b w f φ hf => hf.holding _ }

end Threaded

/-! ## Exceptions as constructors -/

theorem onValue_const {κ : Type} (x y : Exit κ) :
    y.onValue (fun _ => Pure.pure x) = Pure.pure (x.cleanedBy y) := by
  cases y <;> rfl

section Native

variable {inner d : Definition} {i j : DefId} {b : Nat} {w : World}

theorem behaves_onOk (x : Exit ScopeId) {f : Callback} {φ : Datum → Behaviour (Exit ScopeId)}
    (hf : ∀ v : Datum, Prog.Behaves c host b w Encoding.tagged.encode (f.code v.value) (φ v)) :
    Prog.Behaves c host b w Encoding.tagged.encode
      (Effects.onArgument "Ok" (Encoding.tagged.encode x) f) (x.onValue φ) := by
  cases x with
  | value v => exact ((hf v).holding _).holding _
  | exception v => exact Prog.Behaves.pure (Exit.exception v)
  | escape t v => exact Prog.Behaves.pure (Exit.escape t v)

/-- The derived cleanup: in the handler of an exception, which is raised again, and after any
other exit. -/
theorem behaves_either_cleanup (x : Exit ScopeId) {f : Action} {φ : Behaviour (Exit ScopeId)}
    (hf : Prog.Behaves c host b w Encoding.tagged.encode f.code φ) :
    Prog.Behaves c host b w Encoding.tagged.encode
      (Effects.either.cleanup (fun v => Pure.pure (.ctor "Ok" v)) (Encoding.tagged.encode x) f)
      (φ.map x.cleanedBy) := by
  let enc := Encoding.tagged.encode
  let again (e : Value) : Callback :=
    ⟨fun w => Prog.keeping [w] (Pure.pure (.ctor "Err" e)), { values := [e] }⟩
  -- The cleanup before an exception or escape that is passed on.
  have hraised (e : Value) (hx : enc x = .ctor "Err" e) :
      Prog.Behaves c host b w enc
        (do Effects.onArgument "Ok" (← Prog.keeping [e] f.code) (again e))
        (φ.map x.cleanedBy) := by
    refine (hf.holding _).mapped fun y => ?_
    rw [← onValue_const]
    refine behaves_onOk y fun v => Prog.Behaves.holding _ ?_
    rw [← hx]
    exact Prog.Behaves.pure x
  cases x with
  | value v =>
    refine Prog.Behaves.skip ((Prog.Behaves.pure ()).holding _) ?_
    refine Prog.Behaves.holding _ (Prog.Behaves.holding _ ?_)
    refine (hf.holding _).mapped fun y => ?_
    rw [← onValue_const]
    exact behaves_onOk y fun u => Prog.Behaves.pure (Exit.value v)
  | exception v =>
    have h := Prog.Behaves.map_iff _ |>.mp (hraised v.value rfl)
    refine ((h.holding _).holding _ |>.holding _).mapped fun y => ?_
    cases y with
    | value u => exact Prog.Behaves.pure (Exit.exception v)
    | exception u => exact Prog.Behaves.pure (Exit.exception u)
    | escape t u => exact Prog.Behaves.pure (Exit.escape t u)
  | escape s v =>
    have h := Prog.Behaves.map_iff _ |>.mp (hraised (.signal v.value (.scope s)) rfl)
    refine ((h.holding _).holding _ |>.holding _).mapped fun y => ?_
    cases y with
    | value u => exact Prog.Behaves.pure (Exit.escape s v)
    | exception u => exact Prog.Behaves.pure (Exit.exception u)
    | escape t u => exact Prog.Behaves.pure (Exit.escape t u)

theorem native_either (hinner : Effects.either.definition? i = some inner)
    (hd : (Escape.seed inner).definition? j = some d) :
    d.Faithful c host Encoding.tagged.encode Encoding.tagged.encode := by
  obtain rfl := Option.some.inj hinner
  obtain rfl := Option.some.inj hd
  let enc := Encoding.tagged.encode
  exact {
    raises := rfl
    coerces := rfl
    coerce := fun x => by cases x <;> rfl
    pure := fun b w v => Prog.Behaves.pure (Exit.value v)
    raise := fun b w v => Prog.Behaves.pure (Exit.exception v)
    bind := fun b w x f φ hf => behaves_onOk x hf
    handle := fun b w x f φ hf => by
      cases x with
      | value v => exact Prog.Behaves.pure (Exit.value v)
      | exception v =>
        refine Prog.Behaves.holding _ (Prog.Behaves.holding _ ?_)
        simpa [Exit.onException] using hf v
      | escape t v =>
        exact ((Prog.Behaves.pure (Exit.escape t v)).holding _).holding _
    cleanup := fun b w x f φ hf => behaves_either_cleanup x hf
    block := fun b w body φ ψ hbody hψ => by
      refine behaves_blockWith (fun _ _ => rfl) (fun t w₁ x => ?_) hbody hψ
      cases x with
      | value v => exact Prog.Behaves.pure (Exit.value v)
      | exception v =>
        refine Prog.Behaves.holding _ (Prog.Behaves.holding _ ?_)
        exact behaves_missed (v.caught?_value _) (Prog.Behaves.pure (Exit.exception v))
      | escape s v =>
        refine Prog.Behaves.holding _ (Prog.Behaves.holding _ ?_)
        by_cases h : s = t
        · subst h
          have hx : (Exit.escape s v).caughtAt s = .value v := by simp [Exit.caughtAt]
          rw [hx]
          exact behaves_caught (if_pos rfl) ((Prog.Behaves.pure (Exit.value v)).holding _)
        · have hx : (Exit.escape s v).caughtAt t = .escape s v := by simp [Exit.caughtAt, h]
          have hs : ¬ Tag.scope s = Tag.scope t := fun e => h (Tag.scope.inj e)
          rw [hx]
          exact behaves_missed (if_neg hs) (Prog.Behaves.pure (Exit.escape s v))
    forPar := fun b w test body step v τ φ σ ht hb hs =>
      behaves_forParFrom (fun v => Prog.Behaves.pure (Exit.value v))
        (fun x _ _ hf => behaves_onOk x hf) ht hb hs b v
    run := fun b w f φ hf => hf.holding _ }

end Native

/-! ## Loops that iterate -/

section Looping

variable {inner escaped d : Definition} {i j k : DefId}

theorem behaves_forParFrom_iterating {b : Nat} {w : World} {test : Test} {body step : Callback}
    {τ : Datum → Behaviour Bool} {φ : Datum → Behaviour (Exit ScopeId)}
    {σ : Datum → Behaviour Datum}
    (ht : ∀ v : Datum,
      Prog.Behaves c host b w (fun t : Bool => t) (test.code v.value) (τ v))
    (hb : ∀ v : Datum,
      Prog.Behaves c host b w Encoding.direct.encode (body.code v.value) (φ v))
    (hs : ∀ v : Datum, Prog.Behaves c host b w Datum.value (step.code v.value) (σ v))
    (n : Nat) (v : Datum) :
    Prog.Behaves c host b w Encoding.direct.encode (Effects.forParFrom test body step n v.value)
      (Behaviour.loop τ φ σ n v) := by
  induction n generalizing v with
  | zero => exact fun _ _ _ => rfl
  | succ n ih =>
    refine Prog.Behaves.bind (((ht v).holding _).holding _) fun t => ?_
    cases t with
    | false => exact Prog.Behaves.pure (Exit.value v)
    | true =>
      refine Prog.Behaves.bind (((hb v).holding _).holding _) fun x => ?_
      cases x with
      | value u =>
        have hu : (Encoding.direct.encode (.value u)).isSignal = false := u.isSignal_value
        simp only [hu]
        exact Prog.Behaves.bind (((hs v).holding _).holding _) ih
      | exception u => exact Prog.Behaves.pure (Exit.exception u)
      | escape t u => exact Prog.Behaves.pure (Exit.escape t u)

theorem looping (hinner : Effects.identity.definition? i = some inner)
    (hescaped : (Escape.seed inner).definition? j = some escaped)
    {home : BrandId → Option DefId} {iterate : Callback → Value → Prog Value}
    (hd : (((escaped.extend home "loops").set .forPar fun test body step v =>
      Prog.holding (test.holds ++ body.holds ++ step.holds)
        (.bounded fun n => Effects.forParFrom test body step n v)).set .iterate
          iterate).definition? k = some d) :
    d.Faithful c host Encoding.direct.encode Encoding.direct.encode := by
  have h : escaped.Faithful c host Encoding.direct.encode Encoding.direct.encode :=
    threaded_identity hinner hescaped
  obtain rfl := Option.some.inj hinner
  obtain rfl := Option.some.inj hescaped
  obtain rfl := Option.some.inj hd
  exact {
    raises := rfl
    coerces := rfl
    coerce := h.coerce
    pure := h.pure
    raise := h.raise
    bind := h.bind
    handle := h.handle
    cleanup := h.cleanup
    block := h.block
    forPar := fun b w test body step v τ φ σ ht hb hs =>
      Prog.Behaves.holding _ (Prog.Behaves.bounded (behaves_forParFrom_iterating ht hb hs b v))
    run := h.run }

end Looping

end Definition.Faithful

end EffectLayers
