import EffectLayers.Proofs.Layer.Callbacks
import EffectLayers.Proofs.Layer.Loops
import EffectLayers.Proofs.Program.Steady

/-!
# Loops under a context

A full context layer hands the test and the step of a loop on as they are: only the body runs with
its definition installed. If the loop beneath runs its callbacks in place, test and step see what is
installed where the loop is called, in every round, and all three see the same definition exactly if
it was installed there before.

What a callback sees is stated by a check: the callback means nothing unless the definition is
installed. A loop whose callbacks are checked and that runs as before never fails a check.

## Main definitions

* `Prog.seeing`, `Closure.seeing`: a program, and a callback, with the check.
* `Prog.AgreeAt`: two programs that do the same wherever a definition is installed.
* `Seed.InPlace`, `Definition.InPlace`: continuations and loops run their callbacks in place.

## Main statements

* `Definition.InPlace.escaping`, `Definition.InPlace.carried` and the like: layers beneath a context
  keep that.
* `Seed.loop_context_iff`: what the callbacks of a loop see.
-/

namespace EffectLayers

variable {α β : Type}

/-! ## Checks -/

/-- The program, which means nothing unless `x` is installed where it starts. -/
def Prog.seeing (x : Option DefId) (p : Prog α) : Prog α := do
  if (← Prog.query .current) = x then p else .halt .meaningless

/-- The callback, every run of which means nothing unless `x` is installed where it starts. -/
def Closure.seeing (x : Option DefId) (f : Closure (Value → Prog α)) : Closure (Value → Prog α) :=
  f.map fun code v => (code v).seeing x

/-- However a run of the callback ends, the definition is installed that was before. -/
def Closure.Restores (f : Closure (Value → Prog α)) : Prop := ∀ v, (f.code v).Restores

/-- Two programs that do the same wherever `x` is installed, and leave it installed. -/
structure Prog.AgreeAt (x : Option DefId) (p q : Prog α) : Prop where
  same : ∀ c b w, w.ambient = x → p.run c b w = q.run c b w
  keeps : ∀ c b w r w', w.ambient = x → p.run c b w = .finished r w' → w'.ambient = x

/-- Two callbacks that do the same wherever `x` is installed. -/
structure Closure.AgreeAt (x : Option DefId) (f g : Closure (Value → Prog α)) : Prop where
  holds : f.holds = g.holds
  code : ∀ v, (f.code v).AgreeAt x (g.code v)

namespace Prog

variable {x : Option DefId} {p q : Prog α}

theorem run_seeing {w : World} (h : w.ambient = x) (c : Catalog) (b : Nat) (p : Prog α) :
    (p.seeing x).run c b w = p.run c b w := by
  have hcurrent : (Query.current.answer c w).1 = x := h
  rw [seeing, run_bind, run_query]
  simp only [Outcome.bind, if_pos hcurrent]
  rfl

theorem run_seeing_of_ne {w : World} (h : w.ambient ≠ x) (c : Catalog) (b : Nat) (p : Prog α) :
    (p.seeing x).run c b w = .halted .meaningless := by
  have hcurrent : (Query.current.answer c w).1 ≠ x := h
  rw [seeing, run_bind, run_query]
  simp only [Outcome.bind, if_neg hcurrent, run_halt]

theorem Restores.agreeAt (h : p.Restores) : p.AgreeAt x p where
  same _ _ _ _ := rfl
  keeps c b w r w' hw hrun := (h c b w w' r hrun).trans hw

theorem Restores.agreeAt_seeing (h : p.Restores) : p.AgreeAt x (p.seeing x) where
  same c b _ hw := (run_seeing hw c b p).symm
  keeps c b w r w' hw hrun := (h c b w w' r hrun).trans hw

namespace AgreeAt

theorem bind {f g : α → Prog β} (h : p.AgreeAt x q) (hf : ∀ a, (f a).AgreeAt x (g a)) :
    (p >>= f).AgreeAt x (q >>= g) where
  same c b w hw := by
    rw [run_bind, run_bind, ← h.same c b w hw]
    rcases hrun : p.run c b w with _ | ⟨e | a, w₁⟩
    · rfl
    · rfl
    · exact (hf a).same c b w₁ (h.keeps c b w _ w₁ hw hrun)
  keeps c b w r w' hw hrun := by
    rw [run_bind] at hrun
    rcases hp : p.run c b w with _ | ⟨e | a, w₁⟩ <;> rw [hp] at hrun
    · cases hrun
    · cases hrun
      exact h.keeps c b w _ w' hw hp
    · exact (hf a).keeps c b w₁ r w' (h.keeps c b w _ w₁ hw hp) hrun

theorem holding (g : Holding) (h : p.AgreeAt x q) :
    (Prog.holding g p).AgreeAt x (Prog.holding g q) where
  same c b w hw := by
    have hinside : (w.entering (.holding g)).ambient = x := hw
    rw [Prog.holding, Prog.holding, run_inside, run_inside, h.same c b _ hinside]
  keeps c b w r w' hw hrun := by
    rw [Prog.holding, run_inside] at hrun
    have hinside : (w.entering (.holding g)).ambient = x := hw
    obtain ⟨r₁, w₁, hp, hleave⟩ := Outcome.onward_eq_finished hrun
    cases hleave
    exact h.keeps c b _ _ w₁ hinside hp

theorem keeping (vs : List Value) (h : p.AgreeAt x q) :
    (Prog.keeping vs p).AgreeAt x (Prog.keeping vs q) :=
  h.holding _

theorem bounded {next next' : Nat → Prog α} (h : ∀ n, (next n).AgreeAt x (next' n)) :
    (Prog.bounded next).AgreeAt x (.bounded next') where
  same c b w hw := (h b).same c b w hw
  keeps c b w r w' hw hrun := (h b).keeps c b w r w' hw hrun

/-- What runs with another definition installed agrees wherever it does so there. -/
theorem around {a : Installer} (h : ∀ c b w, w.ambient = some a.target →
    p.run c b w = q.run c b w) : (a.around p).AgreeAt x (a.around q) where
  same c b w hw := by
    cases halive : w.alive c a.target with
    | true =>
      rw [Installer.run_around_alive halive, Installer.run_around_alive halive, h c b _ rfl]
    | false => rw [Installer.run_around_gone halive, Installer.run_around_gone halive]
  keeps c b w r w' hw hrun := by
    cases halive : w.alive c a.target with
    | true =>
      rw [Installer.run_around_alive halive] at hrun
      obtain ⟨r₁, w₁, -, hleave⟩ := Outcome.onward_eq_finished hrun
      cases hleave
      exact hw
    | false =>
      rw [Installer.run_around_gone halive] at hrun
      cases hrun
      exact hw

end AgreeAt

end Prog

namespace Closure

variable {x : Option DefId}

theorem Restores.agreeAt_seeing {f : Closure (Value → Prog α)} (h : f.Restores) :
    f.AgreeAt x (f.seeing x) :=
  ⟨rfl, fun v => (h v).agreeAt_seeing⟩

theorem AgreeAt.call {f g : Closure (Value → Prog α)} (h : f.AgreeAt x g) (v : Value) :
    (f.call v).AgreeAt x (g.call v) := by
  rw [Closure.call, Closure.call, run, run, holds_map, holds_map, h.holds]
  exact (h.code v).holding _

theorem AgreeAt.map {f g : Callback} (h : f.AgreeAt x g) {k : Value → Prog Value → Prog Value}
    (hk : ∀ v p q, p.AgreeAt x q → (k v p).AgreeAt x (k v q)) :
    (f.map fun code v => k v (code v)).AgreeAt x (g.map fun code v => k v (code v)) :=
  ⟨h.holds, fun v => hk v _ _ (h.code v)⟩

/-- With a definition of its own installed a callback sees that, whatever is installed around it. -/
theorem agreeAt_callback_seeing (a : Installer) (f : Callback) :
    (a.callback f).AgreeAt x (a.callback (f.seeing (some a.target))) :=
  ⟨rfl, fun v => .around fun c b _ hw => (Prog.run_seeing hw c b (f.code v)).symm⟩

end Closure

/-! ## Callbacks that run in place -/

/-- Continuations run where `bind` is used: it cannot tell callbacks that do the same there. -/
def BindsInPlace (bind : Value → Callback → Prog Value) : Prop :=
  ∀ x a f g, f.AgreeAt x g → (bind a f).AgreeAt x (bind a g)

/-- Tests, bodies and steps run where the loop is used. -/
def LoopsInPlace (loop : Test → Callback → Callback → Value → Prog Value) : Prop :=
  ∀ x test test' body body' step step' v, test.AgreeAt x test' → body.AgreeAt x body' →
    step.AgreeAt x step' → (loop test body step v).AgreeAt x (loop test' body' step' v)

/-- The loop derived from a `bind` that runs its continuations in place runs its callbacks in
place. -/
theorem loopsInPlace_forParFrom {bind : Value → Callback → Prog Value} {lift : Value → Prog Value}
    (hbind : BindsInPlace bind) (hlift : ∀ v, (lift v).Restores) :
    LoopsInPlace fun test body step v =>
      .bounded fun n => Seed.forParFrom bind lift test body step n v := by
  intro x test test' body body' step step' v htest hbody hstep
  refine .bounded fun n => ?_
  induction n generalizing v with
  | zero => exact (Prog.restores_halt _).agreeAt
  | succ n ih =>
    simp only [Seed.forParFrom, htest.holds, hbody.holds, hstep.holds]
    refine .bind (((htest.call v).keeping _).holding _) fun more => ?_
    cases more with
    | false => exact (hlift v).agreeAt.holding _
    | true =>
      refine .bind (((hbody.call v).keeping _).holding _) fun result => hbind x result _ _ ⟨rfl, ?_⟩
      exact fun w => ((hstep.call v).bind ih).keeping _

/-- What the seed gives and derives runs its callbacks in place. -/
structure Seed.InPlace (s : Seed) : Prop where
  reinstall : s.reinstall = none
  pure : ∀ lift, s.ops .pure = some lift → ∀ v, (lift v).Restores
  coerce : ∀ f, s.ops .coerce = some f → ∀ v, (f v).Restores
  bind : BindsInPlace s.bind
  forPar : ∀ f, s.ops .forPar = some f → LoopsInPlace f

/-- The definition runs continuations and the callbacks of its loops in place. -/
structure Definition.InPlace (d : Definition) : Prop where
  pure : ∀ v, (d.table .pure v).Restores
  coerce : ∀ v, (d.table .coerce v).Restores
  bind : BindsInPlace (d.table .bind)
  forPar : LoopsInPlace (d.table .forPar)

theorem Seed.bind_given {s : Seed} {f : Signature .bind} (h : s.ops .bind = some f) :
    s.bind = f := by
  simp only [bind, h]

theorem Seed.InPlace.definition {s : Seed} {id : DefId} {d : Definition} (hs : s.InPlace)
    (hd : s.definition? id = some d) : d.InPlace := by
  obtain ⟨lift, hlift, rfl⟩ := Option.map_eq_some_iff.mp hd
  constructor
  case pure => exact hs.pure lift hlift
  case coerce =>
    change ∀ v, ((s.ops .coerce).getD Pure.pure v).Restores
    cases hops : s.ops .coerce with
    | none => exact fun v => Prog.restores_done _
    | some f => exact hs.coerce f hops
  case bind => exact hs.bind
  case forPar =>
    change LoopsInPlace (s.forPar lift)
    unfold Seed.forPar
    cases hops : s.ops .forPar with
    | none => exact loopsInPlace_forParFrom hs.bind (hs.pure lift hlift)
    | some f => exact hs.forPar f hops

theorem Seed.InPlace.complete {s : Seed} {c c' : Catalog} {d : Definition} (hs : s.InPlace)
    (h : s.complete c = (.ok d, c')) : d.InPlace := by
  obtain ⟨inner, c₁, hinner, h⟩ := Assembly.bind_eq_ok.mp h
  rw [hs.reinstall] at h
  cases h
  obtain ⟨i, hd⟩ := Seed.definition?_of_assemble hinner
  exact hs.definition hd

namespace Packing

variable {w : Packing} {x : Option DefId}

theorem restores_coerce {promote : Value → Prog Value} (h : ∀ v, (promote v).Restores) (v : Value) :
    (w.coerce promote v).Restores := by
  unfold coerce
  split
  · exact Prog.restores_done _
  · exact (h v).bind fun _ => Prog.restores_done _

theorem restores_unpack (h : ∀ promote, w.coercion = some promote → ∀ v, (promote v).Restores)
    (v : Value) : (w.unpack v).Restores := by
  unfold unpack
  split
  · exact Prog.restores_done _
  · exact h _ ‹_› _
  · exact Prog.restores_done _
  · exact Prog.restores_done _

theorem agreeAt_packed {p q : Prog Value} (h : p.AgreeAt x q) :
    (w.packed p).AgreeAt x (w.packed q) :=
  h.bind fun _ => (Prog.restores_done _).agreeAt

end Packing

namespace Definition

variable {inner d : Definition} {c c' : Catalog}

theorem InPlace.escaping {escape : Bool} (hinner : inner.InPlace)
    (h : inner.escaping escape c = (.ok d, c')) : d.InPlace := by
  cases escape with
  | false =>
    cases h
    exact hinner
  | true =>
    obtain ⟨i, hd⟩ := definition?_of_withEscapeControl h
    have hcoerce (f : Value → Prog Value)
        (hf : (Seed.keeping inner "escape").ops .coerce = some f) (v : Value) : (f v).Restores :=
      Seed.eq_of_keeping hf ▸ hinner.coerce v
    rw [Escape.seed] at hd
    split at hd
    case isTrue =>
      have hnative : (Escape.native inner).InPlace := by
        refine ⟨rfl, ?_, hcoerce, ?_, ?_⟩
        · rintro _ ⟨⟩
          exact hinner.pure
        · rw [Seed.bind_given rfl]
          exact hinner.bind
        · rintro _ ⟨⟩
          exact hinner.forPar
      exact hnative.definition hd
    case isFalse =>
      have hthreaded : (Escape.threaded inner).InPlace := by
        have hforPar (f : Signature .forPar) : (Escape.threaded inner).ops .forPar ≠ some f :=
          Option.some_ne_none f |>.symm
        refine ⟨rfl, ?_, hcoerce, ?_, fun f hf => absurd hf (hforPar f)⟩
        · rintro _ ⟨⟩
          exact hinner.pure
        · rw [Seed.bind_given rfl]
          refine fun x a f g hfg => hinner.bind x a _ _ (hfg.map fun v p q hpq => ?_)
          split
          · exact (hinner.pure v).agreeAt
          · exact hpq
      exact hthreaded.definition hd

theorem InPlace.carried {brand : Option Brand} (hinner : inner.InPlace)
    (h : inner.carried brand c = (.ok d, c')) : d.InPlace := by
  cases brand with
  | none =>
    cases h
    exact hinner
  | some brand =>
    obtain ⟨i, hd⟩ := definition?_of_withCarrier h
    generalize hw : inner.packing brand = w at hd
    have hpromote (promote : Value → Prog Value) (hp : w.coercion = some promote) (v : Value) :
        (promote v).Restores := by
      rw [← hw, packing] at hp
      obtain ⟨-, hcoerce⟩ := Option.ite_none_right_eq_some.mp hp
      exact Option.some.inj hcoerce ▸ hinner.coerce v
    have hunpack (v : Value) : (w.unpack v).Restores := Packing.restores_unpack hpromote v
    have hunpacking {x : Option DefId} {f g : Callback} (hfg : f.AgreeAt x g) :
        (w.unpacking f).AgreeAt x (w.unpacking g) :=
      hfg.map fun v p q hpq => hpq.bind fun u => (hunpack u).agreeAt
    have hcarrier : (w.seed inner).InPlace := by
      refine ⟨rfl, ?_, ?_, ?_, ?_⟩
      · rintro _ ⟨⟩ v
        exact (hinner.pure v).bind fun _ => Prog.restores_done _
      · intro f hf v
        obtain ⟨promote, hcoercion, rfl⟩ := Option.map_eq_some_iff.mp hf
        exact Packing.restores_coerce (hpromote promote hcoercion) v
      · rw [Seed.bind_given rfl]
        intro x a f g hfg
        rw [Packing.bindWith, Packing.bindWith, hfg.holds]
        refine .bind ((hunpack a).agreeAt.holding _) fun u => Packing.agreeAt_packed ?_
        exact hinner.bind x u _ _ (hunpacking hfg)
      · rintro _ ⟨⟩ x test test' body body' step step' v htest hbody hstep
        exact Packing.agreeAt_packed
          (hinner.forPar x _ _ _ _ _ _ v htest (hunpacking hbody) hstep)
    exact hcarrier.definition hd

theorem InPlace.coercing {coercion : Bool} (hinner : inner.InPlace)
    (h : inner.coercing coercion c = (.ok d, c')) : d.InPlace := by
  cases coercion with
  | false =>
    cases h
    exact hinner
  | true =>
    obtain ⟨i, hd⟩ := definition?_of_withCoercion h
    have hcoerced {x : Option DefId} {f g : Callback} (hfg : f.AgreeAt x g) :
        (Coercion.coerced (inner.table .coerce) f).AgreeAt x
          (Coercion.coerced (inner.table .coerce) g) :=
      hfg.map fun v p q hpq => hpq.bind fun u => (hinner.coerce u).agreeAt
    have hcoercion : (Coercion.seed inner).InPlace := by
      refine ⟨rfl, ?_, ?_, ?_, ?_⟩
      · rintro _ ⟨⟩
        exact hinner.pure
      · intro f hf v
        have hf : (Seed.keeping inner "coerce").ops .coerce = some f := hf
        exact Seed.eq_of_keeping hf ▸ hinner.coerce v
      · rw [Seed.bind_given rfl]
        exact fun x a f g hfg => hinner.bind x a _ _ (hcoerced hfg)
      · rintro _ ⟨⟩ x test test' body body' step step' v htest hbody hstep
        exact hinner.forPar x _ _ _ _ _ _ v htest (hcoerced hbody) hstep
    exact hcoercion.definition hd

/-- A full context layer hands a loop on with its body installed, and with its test and its step as
they are. -/
theorem forPar_of_context (h : inner.withContext .full c = (.ok d, c')) :
    ∃ a : Installer, a.target = d.id ∧ ∀ test body step v,
      d.table .forPar test body step v = inner.table .forPar test (a.callback body) step v := by
  have hmode : ContextMode.full ≠ .off := nofun
  obtain ⟨i, hd⟩ := definition?_of_withContext hmode h
  refine ⟨⟨inner.name ++ "+context", i⟩, (Seed.id_of_definition? hd).symm, fun _ _ _ _ => ?_⟩
  rw [Seed.table_given hd .forPar rfl]

end Definition

namespace Seed

variable {s : Seed} {o : Options} {c c' : Catalog} {d : Definition}

/-- What a definition with a full context is built on runs its callbacks in place. -/
theorem InPlace.beneath (hs : s.InPlace) (ho : o.context = .full)
    (h : s.build o c = (.ok d, c')) :
    ∃ (inner : Definition) (c₁ c₂ : Catalog),
      inner.InPlace ∧ inner.withContext .full c₁ = (.ok d, c₂) := by
  obtain ⟨d₀, c₀, e, c₁, brand, c₂, hcomplete, hescaping, -, h⟩ := stages_of_build h
  obtain ⟨d₁, c₃, d₂, c₄, c₅, hcarried, hcoercing, hcontext, -⟩ :=
    Definition.stages_of_withLayers h
  rw [ho] at hcontext
  exact ⟨d₂, c₄, c₅, (((hs.complete hcomplete).escaping hescaping).carried hcarried).coercing
    hcoercing, hcontext⟩

/-- A loop that is not given is derived, whatever is stacked on it. -/
theorem forPar_of_build (hs : s.reinstall = none) (hforPar : s.supplies .forPar = false)
    (h : s.build o c = (.ok d, c')) :
    ∃ bind lift, ∀ test body step v, d.table .forPar test body step v =
      ((Loop.forPar test step v).nested bind lift (body.wrap (o.round d))).through
        (d.table .pack) o.carrier.isSome := by
  obtain ⟨d₀, c₀, e, c₁, hcomplete, hescaping, hlayers⟩ := loop_of_stages h
  suffices he : ∃ bind lift, ∀ test step v,
      (Loop.forPar test step v).ofTable e.table = (Loop.forPar test step v).nested bind lift by
    obtain ⟨bind, lift, he⟩ := he
    refine ⟨bind, lift, fun test body step v => ?_⟩
    rw [← he]
    exact hlayers (.forPar test step v) body
  obtain ⟨inner, c₂, hinner, hcomplete⟩ := Assembly.bind_eq_ok.mp hcomplete
  rw [hs] at hcomplete
  cases hcomplete
  obtain ⟨i, hdefinition⟩ := definition?_of_assemble hinner
  have hderived (test : Test) (step : Callback) (v : Value) :
      (Loop.forPar test step v).ofTable d₀.table =
        (Loop.forPar test step v).nested s.bind (d₀.table .pure) :=
    Loop.ofTable_of_derived hdefinition (Option.map_eq_none_iff.mpr (ops_eq_none hforPar))
  cases hescape : o.escape with
  | false =>
    rw [hescape] at hescaping
    cases hescaping
    exact ⟨_, _, hderived⟩
  | true =>
    rw [hescape] at hescaping
    cases hhandle : d₀.supplies .handle with
    | false => exact ⟨_, _, fun _ _ _ => Definition.loop_of_threaded hescaping hhandle _⟩
    | true =>
      refine ⟨s.bind, d₀.table .pure, fun test step v => ?_⟩
      rw [Definition.loop_of_native hescaping hhandle, hderived]

end Seed

/-! ## What the callbacks of a loop see -/

section

variable {bind : Value → Callback → Prog Value} {lift pack : Value → Prog Value} {carried : Bool}
  {c : Catalog} {w : World}

theorem Prog.run_through_of_halted {p : Prog Value} {b : Nat} {h : Halt}
    (hp : p.run c b w = .halted h) : (p.through pack carried).run c b w = .halted h := by
  cases carried with
  | false => exact hp
  | true => rw [through, run_bind, hp, Outcome.bind]

theorem Prog.run_through_of_error {p : Prog Value} {b : Nat} {e : Fault} {w' : World}
    (hp : p.run c b w = .finished (.error e) w') :
    (p.through pack carried).run c b w = .finished (.error e) w' := by
  cases carried with
  | false => exact hp
  | true => rw [through, run_bind, hp, Outcome.bind]

theorem Prog.run_holding_of_halted {p : Prog α} {b : Nat} {h : Halt} (g : Holding)
    (hp : p.run c b (w.entering (.holding g)) = .halted h) :
    (Prog.holding g p).run c b w = .halted h := by
  rw [holding, run_inside, hp, Outcome.onward]

/-- A derived loop fails the check of its first test if something else is installed where it
starts. -/
theorem Loop.run_forPar_seeing {x : Option DefId} (h : w.ambient ≠ x) (test : Test)
    (body step : Callback) (v : Value) (b : Nat) :
    ((Loop.forPar (test.seeing x) step v).nested bind lift body).run c (b + 1) w =
      .halted .meaningless := by
  let loop := (test.seeing x).holds ++ body.holds ++ step.holds
  have htest : (Prog.holding loop (Prog.keeping [v] ((test.seeing x).call v))).run c (b + 1) w =
      .halted .meaningless := by
    refine Prog.run_holding_of_halted _ (Prog.run_holding_of_halted _ ?_)
    refine Prog.run_holding_of_halted _ (Prog.run_seeing_of_ne ?_ c (b + 1) _)
    exact h
  refine (Prog.run_bind c (b + 1) _ _ w).trans ?_
  rw [htest]
  rfl

/-- A loop that is derived does the same with a check on its test only if that holds where the loop
is called: a test that faults tells being run from failing the check. -/
theorem Seed.ambient_of_forPar_seeing {s : Seed} {o : Options} {c₀ c' : Catalog} {d : Definition}
    (hs : s.reinstall = none) (hforPar : s.supplies .forPar = false)
    (hbuild : s.build o c₀ = (.ok d, c')) {x : Option DefId} {body body' step step' : Callback}
    {v : Value}
    (h : let test : Test := { code := fun _ => throw .noAmbient }
      (d.table .forPar (test.seeing x) body' step' v).run c 1 w =
        (d.table .forPar test body step v).run c 1 w) : w.ambient = x := by
  obtain ⟨bind, lift, hloop⟩ := forPar_of_build hs hforPar hbuild
  by_cases hne : w.ambient = x
  · exact hne
  · change (d.table .forPar (Closure.seeing x { code := fun _ => throw .noAmbient }) body'
      step' v).run c 1 w = _ at h
    rw [hloop, hloop, Prog.run_through_of_halted (Loop.run_forPar_seeing hne _ _ _ _ 0),
      Prog.run_through_of_error (e := .noAmbient) rfl] at h
    cases h

end

/-- Whatever is stacked beneath a full context, if continuations and loops run their callbacks in
place there: the test and the step of a loop see what is installed where the loop is called, and the
body sees the definition. Of a loop that is derived all three see the definition exactly if it is
installed there already. -/
theorem Seed.loop_context_iff {s : Seed} (hs : s.InPlace) {o : Options} (ho : o.context = .full)
    {c c' : Catalog} {d : Definition} (h : s.build o c = (.ok d, c')) :
    (∀ c₁ b (w : World) (test : Test) (body step : Callback) v, test.Restores → step.Restores →
      (d.table .forPar (test.seeing w.ambient) (body.seeing (some d.id))
        (step.seeing w.ambient) v).run c₁ b w = (d.table .forPar test body step v).run c₁ b w) ∧
    (s.supplies .forPar = false → ∀ c₁ (w : World),
      (∀ b (test : Test) (body step : Callback) v, test.Restores → step.Restores →
        (d.table .forPar (test.seeing (some d.id)) (body.seeing (some d.id))
          (step.seeing (some d.id)) v).run c₁ b w =
            (d.table .forPar test body step v).run c₁ b w) ↔
        w.ambient = some d.id) := by
  have hseeing (c₁ : Catalog) (b : Nat) (w : World) (test : Test) (body step : Callback) (v : Value)
      (htest : test.Restores) (hstep : step.Restores) :
      (d.table .forPar (test.seeing w.ambient) (body.seeing (some d.id))
        (step.seeing w.ambient) v).run c₁ b w = (d.table .forPar test body step v).run c₁ b w := by
    obtain ⟨inner, c₂, c₃, hinner, hcontext⟩ := hs.beneath ho h
    obtain ⟨a, ha, hforPar⟩ := Definition.forPar_of_context hcontext
    rw [hforPar, hforPar, ← ha]
    have hagree := hinner.forPar w.ambient _ _ _ _ _ _ v htest.agreeAt_seeing
      (Closure.agreeAt_callback_seeing a body) hstep.agreeAt_seeing
    exact (hagree.same c₁ b w rfl).symm
  refine ⟨hseeing, fun hforPar c₁ w => ⟨fun hall => ?_, fun hw => ?_⟩⟩
  · refine ambient_of_forPar_seeing hs.reinstall hforPar h (c := c₁)
      (hall 1 _ { code := Pure.pure } { code := Pure.pure } .unit ?_ fun _ => ?_)
    · exact fun _ => Prog.restores_done _
    · exact Prog.restores_done _
  · intro b test body step v htest hstep
    have hchecked := hseeing c₁ b w test body step v htest hstep
    rwa [hw] at hchecked

namespace Effects

theorem inPlace_identity : identity.InPlace where
  reinstall := rfl
  pure := by
    rintro _ ⟨⟩ v
    exact Prog.restores_done _
  coerce := by
    rintro _ ⟨⟩ v
    exact Prog.restores_done _
  bind := by
    rw [Seed.bind_given rfl]
    exact fun x a f g hfg => hfg.call a
  forPar := nofun

/-- Loops over plain values, with the standard options. -/
theorem loop_context_identity :
    ∃ d c, identity.build .standard .empty = (.ok d, c) ∧ ∀ w : World,
      (∀ b (test : Test) (body step : Callback) v, test.Restores → step.Restores →
        (d.table .forPar (test.seeing (some d.id)) (body.seeing (some d.id))
          (step.seeing (some d.id)) v).run c b w = (d.table .forPar test body step v).run c b w) ↔
        w.ambient = some d.id := by
  obtain ⟨d, c, hbuild⟩ : ∃ d c, identity.build .standard .empty = (.ok d, c) := ⟨_, _, rfl⟩
  exact ⟨d, c, hbuild, (Seed.loop_context_iff inPlace_identity rfl hbuild).2 rfl c⟩

/-- A test that asks whether something is installed ends the loop of a definition that is alive, as
nothing is where the loop is called. The body, which would end it by a signal, is never run. -/
theorem loop_unhosted_identity :
    ¬ (∀ (inner : Definition) (c c' : Catalog) (d : Definition),
      inner.withContext .full c = (.ok d, c') → ∀ b (w : World), w.alive c' d.id = true →
        ∀ (test : Test) (body step : Callback) v,
          (d.table .forPar (test.seeing (some d.id)) (body.seeing (some d.id))
            (step.seeing (some d.id)) v).run c' b w =
              (d.table .forPar test body step v).run c' b w) ∧
    identity.builds .standard .empty (fun d c =>
      let test : Test := { code := fun _ => do return (← Prog.query .current).isSome }
      let body : Callback := { code := fun v => pure (.signal v .exception) }
      match (d.table .forPar test body { code := pure } (.int 0)).run c 2 (.hosting d.id) with
      | .finished (.ok v) _ => (World.hosting d.id).alive c d.id && v == .int 0
      | _ => false) = true := by
  constructor
  · intro hall
    obtain ⟨d, c, hbuild⟩ : ∃ d c, identity.build .standard .empty = (.ok d, c) := ⟨_, _, rfl⟩
    obtain ⟨inner, c₁, c₂, -, hcontext⟩ := inPlace_identity.beneath rfl hbuild
    have hassemble : Seed.assembleWith (inner.contextSeed .full) c₁ = (.ok d, c₂) := hcontext
    have hknown : d.KnownIn c₂ := Seed.known_of_assembleWith hassemble
    have huses : (World.hosting d.id).Uses d.id :=
      ⟨_, List.mem_singleton_self _, List.mem_singleton_self _⟩
    have halive := huses.alive (Definition.mem_lineage hknown)
    have hambient := Seed.ambient_of_forPar_seeing rfl rfl hbuild
      (hall inner c₁ c₂ d hcontext 1 _ halive _ { code := pure } { code := pure } .unit)
    cases hambient
  · decide +kernel

end Effects

end EffectLayers
