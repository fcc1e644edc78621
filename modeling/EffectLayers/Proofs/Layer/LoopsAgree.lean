import EffectLayers.Proofs.Layer.Loops
import EffectLayers.Proofs.Program.Paired

/-!
# Two ways to loop

The loops that are derived from a `bind` that threads signals run every round in a continuation of
the round before; the loops of `looping` go round by round. Both test, run the body and go on with
the step, and both end with the first signal that the body answers, after which nothing is run. They
differ in what they hold meanwhile: the derived loops hold what every earlier round started with.

## Main definitions

* `Prog.Held`: a program in scopes that hold something.
* `Loop.Rounds`, `Loop.ByRounds`: what a loop does, whatever it holds.
* `Value.opened`: what is in a carrier of a brand.
* `Loop.Paired`: loops of two sessions with callbacks that are paired.

## Main statements

* `Loop.ByRounds.paired`: loops with paired callbacks are paired.
* `Effects.loops_agree`: the loops of both definitions are loops by rounds, and they are paired.
-/

namespace EffectLayers

variable {α β : Type}

/-! ## What is held -/

/-- The second program is the first one in scopes that hold something, however many. -/
inductive Prog.Held (p : Prog α) : Prog α → Prop where
  | refl : Held p p
  | holding (g : Holding) {q : Prog α} (h : Held p q) : Held p (Prog.holding g q)

namespace Prog.Held

variable {p q r : Prog α}

theorem keeping (h : p.Held q) (vs : List Value) : p.Held (Prog.keeping vs q) := h.holding _

theorem trans (h : p.Held q) (h' : q.Held r) : p.Held r := by
  induction h' with
  | refl => exact h
  | holding g _ ih => exact ih.holding g

end Prog.Held

namespace Prog.Paired

variable {P : Pairing} {p q p' q' : Prog α}

theorem held (h : p.Paired P q) (hp : p.Held p') (hq : q.Held q') : p'.Paired P q' := by
  have hleft : p'.Paired P q := by
    induction hp with
    | refl => exact h
    | holding g _ ih => exact ih.holding_left g
  induction hq with
  | refl => exact hleft
  | holding g _ ih => exact ih.holding_right g

/-- With definitions installed that stand for each other. -/
theorem around {a a' : Installer} {p q : Prog Value} (h : P.pairs a.target a'.target)
    (hp : p.Paired P q) : (a.around p).Paired P (a'.around q) :=
  alive h (installed h hp fun _ _ h => done h)

end Prog.Paired

/-! ## Loops by rounds -/

namespace Loop

def init : Loop → Value
  | iterate v | forPar _ _ v => v

/-- Whether there is another round. -/
def more : Loop → Value → Prog Bool
  | iterate _, _ => pure true
  | forPar test _ _, v => test.call v

/-- What the next round starts with, after a round that started with a value and answered one. -/
def next : Loop → Value → Value → Prog Value
  | iterate _, _, r => pure r
  | forPar _ step _, v, _ => step.call v

/-- A program goes through at most so many rounds, the first of which starts with a value. Unless
there is no further round, which ends it with that value, the body is run. A signal of the body is
the answer, and nothing else is run; any other result leads to the next round. What is held
meanwhile is left open. -/
def Rounds (l : Loop) (body : Callback) : Nat → Value → Prog Value → Prop
  | 0, _, p => (Prog.halt .exhausted).Held p
  | n + 1, v, p => ∃ (more : Prog Bool) (round last : Prog Value) (rest : Value → Prog Value),
      (l.more v).Held more ∧ (body.call v).Held round ∧ (pure v : Prog Value).Held last ∧
      (∀ r, r.isSignal = true → (pure r : Prog Value).Held (rest r)) ∧
      (∀ r, r.isSignal = false → ∃ (next : Prog Value) (onward : Value → Prog Value),
        (l.next v r).Held next ∧ (∀ u, l.Rounds body n u (onward u)) ∧
          (next >>= onward).Held (rest r)) ∧
      (more >>= fun more => if more then round >>= rest else last).Held p

/-- A program that runs the loop round by round. -/
def ByRounds (l : Loop) (body : Callback) (p : Prog Value) : Prop :=
  ∃ rounds : Nat → Prog Value, (∀ n, l.Rounds body n l.init (rounds n)) ∧
    (Prog.bounded rounds).Held p

/-- Continuations are skipped while a signal is the result. -/
structure Skips (bind : Value → Callback → Prog Value) : Prop where
  signal (r : Value) (f : Callback) : r.isSignal = true → (pure r : Prog Value).Held (bind r f)
  result (r : Value) (f : Callback) : r.isSignal = false → (f.code r).Held (bind r f)

section

variable {bind : Value → Callback → Prog Value} {lift : Value → Prog Value}

/-- Rounds that are nested in continuations. -/
theorem rounds_nested_forPar (hbind : Skips bind) (hlift : ∀ v, lift v = pure v) (test : Test)
    (body step : Callback) (init : Value) (n : Nat) (v : Value) :
    (forPar test step init).Rounds body n v (Seed.forParFrom bind lift test body step n v) := by
  induction n generalizing v with
  | zero => exact .refl
  | succ n ih =>
    refine ⟨_, _, _, _, (Prog.Held.refl.keeping [v]).holding _,
      (Prog.Held.refl.keeping [v]).holding _, ?_, fun r hr => hbind.signal r _ hr, fun r hr => ?_,
      .refl⟩
    · rw [hlift]
      exact Prog.Held.refl.holding _
    · refine ⟨step.call v, _, .refl, ih, .trans ?_ (hbind.result r _ hr)⟩
      exact Prog.Held.refl.keeping [r]

theorem rounds_nested_iterate (hbind : Skips bind) (body : Callback) (init : Value) (n : Nat)
    (v : Value) : (iterate init).Rounds body n v (Seed.iterateFrom bind body n v) := by
  induction n generalizing v with
  | zero => exact .refl
  | succ n ih =>
    refine ⟨pure true, _, pure v, _, .refl, .refl, .refl, fun r hr => hbind.signal r _ hr,
      fun r hr => ?_, .refl⟩
    refine ⟨pure r, _, .refl, ih, .trans ?_ (hbind.result r _ hr)⟩
    exact .refl

theorem byRounds_nested (hbind : Skips bind) (hlift : ∀ v, lift v = pure v) (l : Loop)
    (body : Callback) : l.ByRounds body (l.nested bind lift body) := by
  cases l with
  | iterate v => exact ⟨_, fun n => rounds_nested_iterate hbind body v n v, .holding _ .refl⟩
  | forPar test step v =>
    exact ⟨_, fun n => rounds_nested_forPar hbind hlift test body step v n v, .refl⟩

end

/-- Rounds that go on one after the other. -/
theorem rounds_forPar (test : Test) (body step : Callback) (init : Value) (n : Nat) (v : Value) :
    (forPar test step init).Rounds body n v (Effects.forParFrom test body step n v) := by
  induction n generalizing v with
  | zero => exact .refl
  | succ n ih =>
    refine ⟨_, _, pure v, _, Prog.Held.refl.keeping [v], Prog.Held.refl.keeping [v], .refl,
      fun r hr => ?_, fun r hr => ?_, .refl⟩
    · rw [if_pos hr]
      exact .refl
    · rw [if_neg (Bool.eq_false_iff.mp hr)]
      exact ⟨_, _, Prog.Held.refl.keeping [r], ih, .refl⟩

theorem rounds_iterate (body : Callback) (init : Value) (n : Nat) (v : Value) :
    (iterate init).Rounds body n v (Effects.iterateFrom body n v) := by
  induction n generalizing v with
  | zero => exact .refl
  | succ n ih =>
    refine ⟨pure true, _, pure v, _, .refl, .refl, .refl, fun r hr => ?_, fun r hr => ?_, .refl⟩
    · rw [if_pos hr]
      exact .refl
    · rw [if_neg (Bool.eq_false_iff.mp hr)]
      exact ⟨pure r, _, .refl, ih, .refl⟩

/-! ## Loops of two sessions -/

/-- Calls of one loop with callbacks that are paired. -/
inductive Paired (P : Pairing) : Loop → Loop → Prop where
  | iterate (v : Value) : Paired P (.iterate v) (.iterate v)
  | forPar {test test' : Test} {step step' : Callback} (htest : test.Paired P test')
      (hstep : step.Paired P step') (v : Value) :
      Paired P (.forPar test step v) (.forPar test' step' v)

variable {P : Pairing} {l l' : Loop} {body body' : Callback}

theorem Paired.more (h : l.Paired P l') (v : Value) : (l.more v).Paired P (l'.more v) := by
  cases h with
  | iterate => exact .pure true
  | forPar htest => exact htest.call v

theorem Paired.next (h : l.Paired P l') (v r : Value) : (l.next v r).Paired P (l'.next v r) := by
  cases h with
  | iterate => exact .pure r
  | forPar _ hstep => exact hstep.call v

theorem Rounds.paired (h : l.Paired P l') (hbody : body.Paired P body') {n : Nat} {v : Value}
    {p q : Prog Value} (hp : l.Rounds body n v p) (hq : l'.Rounds body' n v q) :
    p.Paired P q := by
  induction n generalizing v p q with
  | zero => exact Prog.Paired.held (.halt .exhausted) hp hq
  | succ n ih =>
    obtain ⟨more, round, last, rest, hmore, hround, hlast, hsignal, hresult, hp⟩ := hp
    obtain ⟨more', round', last', rest', hmore', hround', hlast', hsignal', hresult', hq⟩ := hq
    refine Prog.Paired.held (.bind ((h.more v).held hmore hmore') fun go => ?_) hp hq
    cases go with
    | false => exact (Prog.Paired.pure v).held hlast hlast'
    | true =>
      refine ((hbody.call v).held hround hround').bind fun r => ?_
      cases hr : r.isSignal with
      | true => exact (Prog.Paired.pure r).held (hsignal r hr) (hsignal' r hr)
      | false =>
        obtain ⟨next, onward, hnext, honward, hrest⟩ := hresult r hr
        obtain ⟨next', onward', hnext', honward', hrest'⟩ := hresult' r hr
        have hnext := (h.next v r).held hnext hnext'
        exact (hnext.bind fun u => ih (honward u) (honward' u)).held hrest hrest'

theorem Paired.init_eq (h : l.Paired P l') : l'.init = l.init := by
  cases h <;> rfl

/-- Loops with paired callbacks are paired, however their rounds follow one another. -/
theorem ByRounds.paired (h : l.Paired P l') (hbody : body.Paired P body') {p q : Prog Value}
    (hp : l.ByRounds body p) (hq : l'.ByRounds body' q) : p.Paired P q := by
  obtain ⟨rounds, hrounds, hp⟩ := hp
  obtain ⟨rounds', hrounds', hq⟩ := hq
  refine Prog.Paired.held (.bounded fun n => ?_) hp hq
  exact (hrounds n).paired h hbody (h.init_eq ▸ hrounds' n)

end Loop

/-! ## Bodies under the layers -/

/-- What is in a carrier of the brand, if there is one; any other value as it is. -/
def Value.opened : Option Brand → Value → Value
  | some brand, .carrier b inner => if b.same brand then inner else .carrier b inner
  | _, v => v

theorem Packing.opened_eq (w : Packing) (v : Value) :
    v.opened (some w.brand) = (w.inner? v).getD v := by
  cases v with
  | carrier b inner =>
    simp only [Value.opened, inner?]
    split <;> rfl
  | _ => rfl

/-- What leaves a carrier on values that `coerce` leaves as they are. -/
theorem Packing.unpack_eq_opened (brand : Brand) (v : Value) :
    (Packing.mk brand (some pure)).unpack v = pure (v.opened (some brand)) := by
  rw [(Packing.mk brand (some pure)).opened_eq]
  unfold unpack
  cases hv : (Packing.mk brand (some pure)).inner? v with
  | some u => rfl
  | none => rfl

theorem Value.opened_packed (brand : Option Brand) (v : Value) :
    (v.packed brand).opened brand = v := by
  cases brand with
  | none => rfl
  | some brand => simp only [packed, opened, Brand.same_self, if_true]

/-- The body of a loop as the layers of a definition hand it on, if values are effect values beneath
them: it runs with the definition installed, and what it answers is taken out of its carrier. -/
def Options.opening (o : Options) (d : Definition) (brand : Option Brand) (body : Callback) :
    Callback :=
  body.wrap fun p => do return (← p.under (o.installer d)).opened brand

theorem Closure.Paired.opening {P : Pairing} {body body' : Callback} {d e : Definition}
    (h : body.Paired P body') (hpair : P.pairs d.id e.id) (o : Options) (brand : Option Brand) :
    (o.opening d brand body).Paired P (o.opening e brand body') := by
  intro v
  refine .bind ?_ fun r => .pure _
  rw [Options.installer, Options.installer]
  cases o.context with
  | full => exact (h v).around hpair
  | off | runOnly => exact h v

namespace Definition

variable {inner d : Definition} {brand : Option Brand} {o : Options} {c c' : Catalog}

/-- Effect values are plain values: the definition was given a `coerce` that leaves every value as
it is, and a `raise` that makes a signal, and its loops are loops by rounds. -/
structure Plain (d : Definition) : Prop where
  coerces : d.supplies .coerce = true
  coerce : d.table .coerce = pure
  raises : d.supplies .raise = true
  raise : d.table .raise = fun e => pure (.signal e .exception)
  loops (l : Loop) (body : Callback) : l.ByRounds body (l.ofTable d.table body)

/-- The loops of a definition run as loops by rounds, on values that a carrier of the brand, if
there is one, is taken off and put back on. -/
def LoopsByRounds (d : Definition) (o : Options) (brand : Option Brand) : Prop :=
  ∀ l body, ∃ p, Loop.ByRounds l (o.opening d brand body) p ∧
    l.ofTable d.table body = do return (← p).packed brand

/-- A carrier on plain values: what enters it by `coerce` or `pack` is what leaves it. -/
theorem Plain.carried (hinner : inner.Plain) (h : inner.carried brand c = (.ok d, c')) :
    (∀ v, ∃ u, d.table .coerce v = pure u ∧ u.opened brand = v.opened brand) ∧
      (brand.isSome = true → ∀ v, d.table .unpack v = pure (v.opened brand)) ∧
      (brand.isSome = true → ∀ v, d.table .pack v = pure (v.packed brand)) := by
  cases brand with
  | none =>
    cases h
    exact ⟨fun v => ⟨v, congrFun hinner.coerce v, rfl⟩, nofun, nofun⟩
  | some brand =>
    obtain ⟨i, hd⟩ := definition?_of_withCarrier h
    have hpacking : inner.packing brand = ⟨brand, some pure⟩ := by
      rw [packing, if_pos hinner.coerces, hinner.coerce]
    rw [hpacking] at hd
    refine ⟨fun v => ?_, fun _ v => ?_, fun _ v => ?_⟩
    · rw [Seed.table_given hd .coerce rfl, Packing.coerce]
      cases hv : Packing.inner? ⟨brand, some pure⟩ v with
      | some u => exact ⟨v, rfl, rfl⟩
      | none =>
        refine ⟨v.packed (some brand), rfl, ?_⟩
        rw [Value.opened_packed, Packing.opened_eq ⟨brand, some pure⟩, hv, Option.getD_none]
    · rw [Seed.table_given hd .unpack rfl]
      exact Packing.unpack_eq_opened brand v
    · rw [Seed.table_given hd .pack rfl]
      rfl

/-- Above the carrier its constructors are kept. -/
theorem keeps_of_withLayers (h : inner.withLayers o brand c = (.ok d, c')) :
    ∃ d₁ c₁, inner.carried brand c = (.ok d₁, c₁) ∧ d.Keeps d₁ ∧
      (o.coercion = true → d₁.supplies .coerce = true) := by
  obtain ⟨d₁, c₁, d₂, c₂, c₃, hcarried, hcoercing, hcontext, -⟩ := stages_of_withLayers h
  refine ⟨d₁, c₁, hcarried, (keeps_of_withContext hcontext).trans (keeps_of_coercing hcoercing),
    fun hcoercion => ?_⟩
  rw [hcoercion] at hcoercing
  exact supplies_coerce_of_coercing hcoercing

theorem Plain.round (hbrand : brand.isSome = o.carrier.isSome) (hinner : inner.Plain)
    (h : inner.withLayers o brand c = (.ok d, c')) (p : Prog Value) :
    o.round d p = (do return (← p.under (o.installer d)).opened brand) ∧
      p.through (d.table .pack) o.carrier.isSome = (do return (← p).packed brand) := by
  obtain ⟨d₁, c₁, hcarried, hkeeps, hcoerces⟩ := keeps_of_withLayers h
  obtain ⟨hcoerce, hunpack, hpack⟩ := hinner.carried hcarried
  have hreturn (q : Prog Value) :
      (do return (← q.through (d.table .coerce) o.coercion).opened brand) =
        (do return (← q).opened brand : Prog Value) := by
    cases hcoercion : o.coercion with
    | false => rfl
    | true =>
      rw [Prog.through, (hkeeps .coerce rfl (hcoerces hcoercion)).2, bind_assoc]
      refine congrArg (q >>= ·) (funext fun v => ?_)
      obtain ⟨u, hu, hopened⟩ := hcoerce v
      rw [hu, pure_bind, hopened]
  rw [Options.round, ← hbrand]
  cases brand with
  | none => exact ⟨(bind_pure _).symm.trans (hreturn _), (bind_pure p).symm⟩
  | some brand =>
    have hunpack : d.table .unpack = fun v => pure (v.opened (some brand)) := by
      rw [(hkeeps .unpack rfl (supplies_unpack_of_carried hcarried)).2]
      exact funext (hunpack rfl)
    have hpack : d.table .pack = fun v => pure (v.packed (some brand)) := by
      rw [(hkeeps .pack rfl (supplies_pack_of_carried hcarried)).2]
      exact funext (hpack rfl)
    rw [hunpack, hpack]
    exact ⟨hreturn _, rfl⟩

/-- To raise is to answer a signal, packed if there is a carrier. -/
theorem Plain.raise_eq (hinner : inner.Plain) (h : inner.withLayers o brand c = (.ok d, c'))
    (v : Value) : d.table .raise v = pure (Value.packed brand (.signal v .exception)) := by
  obtain ⟨d₁, c₁, hcarried, hkeeps, -⟩ := keeps_of_withLayers h
  cases brand with
  | none =>
    cases hcarried
    rw [(hkeeps .raise rfl hinner.raises).2, hinner.raise]
    rfl
  | some brand =>
    obtain ⟨i, hd⟩ := definition?_of_withCarrier hcarried
    obtain ⟨hraises, hraise⟩ : d₁.supplies .raise = true ∧ d₁.table .raise = _ :=
      Seed.table_of_definition? hd rfl
    rw [(hkeeps .raise rfl hraises).2, hraise, hinner.raise]
    rfl

theorem Plain.loopsByRounds (hbrand : brand.isSome = o.carrier.isSome) (hinner : inner.Plain)
    (h : inner.withLayers o brand c = (.ok d, c')) : d.LoopsByRounds o brand := by
  intro l body
  have hround : body.wrap (o.round d) = o.opening d brand body :=
    congrArg body.wrap (funext fun p => (hinner.round hbrand h p).1)
  refine ⟨_, hinner.loops l (o.opening d brand body), ?_⟩
  rw [loop_of_withLayers hbrand h, hround]
  exact (hinner.round hbrand h _).2

end Definition

namespace Effects

variable {o : Options} {c c' : Catalog} {d : Definition}

/-- To raise by the definition that is installed is the same for definitions that raise alike. -/
theorem paired_raise {P : Pairing} {d e : Definition}
    (hpairs : ∀ x y, P.pairs x y → x = d.id ∧ y = e.id) (hd : d.KnownIn P.left)
    (he : e.KnownIn P.right) {v : Value}
    (hraise : (d.table .raise v).Paired P (e.table .raise v)) :
    (Ambient.invoke .raise [v]).Paired P (Ambient.invoke .raise [v]) := by
  refine .current fun x y hxy => ?_
  cases hxy with
  | none => exact .throw _
  | some hxy =>
    obtain ⟨rfl, rfl⟩ := hpairs _ _ hxy
    exact .invoke hd he (.operation .raise) [v] hraise fun _ _ h => .done h

/-- Threading signals through plain values skips continuations on a signal. -/
theorem skips_identity {i : DefId} (h : identity.definition? i = some d) :
    Loop.Skips (Escape.threaded d).bind := by
  have hbind : (Escape.threaded d).bind = fun r f =>
      Prog.holding f.holds (if r.isSignal then pure r else f.code r) := by
    obtain rfl := Option.some.inj h
    rfl
  rw [hbind]
  constructor
  · intro r f hr
    simp only [hr, if_true]
    exact .holding _ .refl
  · intro r f hr
    simp only [hr, Bool.false_eq_true, if_false]
    exact .holding _ .refl

theorem exists_build_identity (o : Options) (c : Catalog) :
    ∃ d c', identity.build o c = (.ok d, c') := by
  obtain ⟨escape, carrier, coercion, context, dispatch⟩ := o
  cases escape <;> cases carrier <;> cases coercion <;> cases context <;> cases dispatch <;>
    exact ⟨_, _, rfl⟩

theorem exists_build_looping (o : Options) (c : Catalog) :
    ∃ d c', (looping >>= fun s => s.build o) c = (.ok d, c') := by
  obtain ⟨escape, carrier, coercion, context, dispatch⟩ := o
  cases escape <;> cases carrier <;> cases coercion <;> cases context <;> cases dispatch <;>
    exact ⟨_, _, rfl⟩

theorem stages_identity (h : identity.build { o with escape := true } c = (.ok d, c')) :
    ∃ (e : Definition) (c₁ : Catalog), e.Plain ∧
      e.withLayers { o with escape := true } (o.carrier.map (⟨c.nextBrand, ·⟩)) c₁ =
        (.ok d, c') := by
  obtain ⟨d₀, c₀, e, c₁, brand, c₂, hcomplete, hescaping, rfl, h⟩ := Seed.stages_of_build h
  obtain ⟨i, hinner⟩ := Seed.definition?_of_complete rfl hcomplete
  have hskips := skips_identity hinner
  cases hcomplete
  have hloops (l : Loop) : l.ofTable e.table = l.nested _ _ :=
    Definition.loop_of_threaded hescaping rfl l
  cases hescaping
  refine ⟨_, c₂, ⟨rfl, rfl, rfl, rfl, fun l body => ?_⟩, h⟩
  rw [hloops l]
  exact Loop.byRounds_nested hskips (fun v => rfl) l body

theorem stages_looping
    (h : (looping >>= fun s => s.build { o with escape := false }) c = (.ok d, c')) :
    ∃ (e : Definition) (c₁ : Catalog), e.Plain ∧
      e.withLayers { o with escape := false } (o.carrier.map (⟨c.nextBrand, ·⟩)) c₁ =
        (.ok d, c') := by
  obtain ⟨s, c₀, hs, h⟩ := Assembly.bind_eq_ok.mp h
  obtain ⟨d₀, c₁, e, c₂, brand, c₃, hcomplete, hescaping, rfl, h⟩ := Seed.stages_of_build h
  cases hs
  cases hcomplete
  cases hescaping
  refine ⟨_, c₃, ⟨rfl, rfl, rfl, rfl, fun l body => ?_⟩, h⟩
  cases l with
  | iterate v => exact ⟨_, fun n => Loop.rounds_iterate body v n v, .refl⟩
  | forPar test step v =>
    exact ⟨_, fun n => Loop.rounds_forPar test body step v n v, .holding _ .refl⟩

/-- For every combination of the other layers, the loops of `identity` with escape control and those
of `looping` are loops by rounds: after the first signal that the body answers, in its carrier if
there is one, nothing is run and the signal is the result, packed again. With callbacks that are
paired they have the same outcomes, but for names in faults. -/
theorem loops_agree (o : Options) {c c' : Catalog} (hnumber : c'.nextBrand = c.nextBrand) :
    ∃ d c₁ e c₁', identity.build { o with escape := true } c = (.ok d, c₁) ∧
      (looping >>= fun s => s.build { o with escape := false }) c' = (.ok e, c₁') ∧
      let brand : Option Brand := o.carrier.map (⟨c.nextBrand, ·⟩)
      d.LoopsByRounds o brand ∧ e.LoopsByRounds o brand ∧
        ∀ P : Pairing, P.pairs d.id e.id → ∀ l l' : Loop, l.Paired P l' →
          ∀ body body' : Callback, body.Paired P body' → ∀ b w w', w.Paired P w' →
            ((l.ofTable d.table body).run P.left b w).Paired P
              ((l'.ofTable e.table body').run P.right b w') := by
  obtain ⟨d, c₁, hd⟩ := exists_build_identity { o with escape := true } c
  obtain ⟨e, c₁', he⟩ := exists_build_looping { o with escape := false } c'
  obtain ⟨inner, c₂, hinner, hd'⟩ := stages_identity hd
  obtain ⟨inner', c₂', hinner', he'⟩ := stages_looping he
  rw [hnumber] at he'
  have hloops : d.LoopsByRounds o _ := hinner.loopsByRounds Option.isSome_map hd'
  have hloops' : e.LoopsByRounds o _ := hinner'.loopsByRounds Option.isSome_map he'
  refine ⟨d, c₁, e, c₁', hd, he, hloops, hloops', ?_⟩
  intro P hpair l l' hl body body' hbody b w w' hw
  obtain ⟨p, hp, hl₁⟩ := hloops l body
  obtain ⟨q, hq, hl₂⟩ := hloops' l' body'
  rw [hl₁, hl₂]
  have hpq : p.Paired P q := hp.paired hl (hbody.opening hpair o _) hq
  exact (hpq.bind fun v => .pure _).run b hw

/-- From `0` on, each test logged. -/
def logging : Loop :=
  let test : Test := { code := fun v => do
    Prog.query (.log v)
    return v != .int 2 }
  .forPar test { code := fun _ => pure (.int 1) } (.int 0)

/-- Raises `1` by the definition that is installed. -/
def raising : Callback where
  code v := if v == .int 1 then Ambient.invoke .raise [v] else pure v

/-- With a carrier, coercion and a context, and a body that raises in the second round: the raised
signal is the result of both loops, in the carrier. -/
theorem loops_agree_raising :
    (∃ d c e c', identity.build ⟨true, some "m", true, .full, .home⟩ .empty = (.ok d, c) ∧
      (looping >>= fun s => s.build ⟨false, some "m", true, .full, .home⟩) .empty = (.ok e, c') ∧
      ∀ b, ((logging.ofTable d.table raising).run c b (.hosting d.id)).Paired
        (.both c c' d.id e.id) ((logging.ofTable e.table raising).run c' b (.hosting e.id))) ∧
    identity.builds ⟨true, some "m", true, .full, .home⟩ .empty (fun d c =>
      match (logging.ofTable d.table raising).run c 3 (.hosting d.id) with
      | .finished (.ok v) w =>
        v == .carrier ⟨firstNumber, "m"⟩ (.signal (.int 1) .exception) &&
          w.log == #[.int 0, .int 1]
      | _ => false) = true := by
  refine ⟨?_, by decide +kernel⟩
  obtain ⟨d, c, e, c', hd, he, -, -, hagree⟩ :=
    loops_agree ⟨true, some "m", true, .full, .home⟩ (c := .empty) rfl
  refine ⟨d, c, e, c', hd, he, fun b => ?_⟩
  have hd' : d.KnownIn c := Seed.known_of_build hd
  have he' : e.KnownIn c' := by
    obtain ⟨s, c₁, -, h⟩ := Assembly.bind_eq_ok.mp he
    exact Seed.known_of_build h
  obtain ⟨inner, c₁, hinner, hlayers⟩ := stages_identity hd
  obtain ⟨inner', c₁', hinner', hlayers'⟩ := stages_looping he
  refine hagree (.both c c' d.id e.id) ⟨rfl, rfl⟩ logging logging (.forPar ?_ ?_ _) raising
    raising ?_ b _ _ (.hosting (Definition.mem_lineage hd') (Definition.mem_lineage he'))
  · exact fun v => .ask rfl fun _ => .pure _
  · exact fun v => .pure _
  · intro v
    by_cases hv : (v == .int 1) = true
    · have hcode : raising.code v = Ambient.invoke .raise [v] := if_pos hv
      rw [hcode]
      refine paired_raise (P := .both c c' d.id e.id) (fun _ _ h => h) hd' he' ?_
      rw [hinner.raise_eq hlayers, hinner'.raise_eq hlayers']
      exact .pure _
    · have hcode : raising.code v = pure v := if_neg hv
      rw [hcode]
      exact .pure v

/-- From `0` by a function value that holds the definition `1` and by `1` to `2`. -/
def passing : Loop :=
  let step : Callback := { code := fun
    | .int 0 => (DefId.lifted 1 .unit).reify
    | .int 1 => pure (.int 2)
    | _ => pure (.int 1) }
  .forPar { code := fun v => pure (v != .int 2) } step (.int 0)

/-- Forgets the only name of a definition at `0`, and uses a value of its brand at `1`. -/
def dropping : Callback where
  code
    | .int 0 => do
      let _ ← Prog.query (.forget "x")
      return .unit
    | .int 1 => (Value.carrier ⟨firstNumber, "m"⟩ (.int 7)).method .unpack []
    | _ => pure .unit

/-- The loop, run where the definition `1` has a name, answers `2`. -/
def passes (d : Definition) (c : Catalog) : Bool :=
  match (passing.ofTable d.table dropping).run c 5 { World.empty with names := [("x", 1)] } with
  | .finished (.ok (.int i)) _ => i == 2
  | _ => false

theorem run_of_passes (h : passes d c = true) :
    ∃ w, (passing.ofTable d.table dropping).run c 5 { World.empty with names := [("x", 1)] } =
      .finished (.ok (.int 2)) w := by
  unfold passes at h
  split at h
  case h_1 i w hrun => exact ⟨w, eq_of_beq h ▸ hrun⟩
  case h_2 => cases h

/-- The loop, run where the definition `1` has a name, fails for want of it. -/
def detaches (d : Definition) (c : Catalog) : Bool :=
  match (passing.ofTable d.table dropping).run c 5 { World.empty with names := [("x", 1)] } with
  | .finished (.error (.detached name)) _ => name == "m"
  | _ => false

theorem run_of_detaches (h : detaches d c = true) :
    ∃ w, (passing.ofTable d.table dropping).run c 5 { World.empty with names := [("x", 1)] } =
      .finished (.error (.detached "m")) w := by
  unfold detaches at h
  split at h
  case h_1 name w hrun => exact ⟨w, eq_of_beq h ▸ hrun⟩
  case h_2 => cases h

/-- Nothing is to be kept by a loop alone: a derived loop holds what an earlier round started with,
which holds a definition whose name was forgotten, and the other loop does not. -/
theorem loops_differ_dropping :
    ¬ (∀ (o : Options) (c c₁ c₂ : Catalog) (d e : Definition),
      identity.build { o with escape := true } c = (.ok d, c₁) →
      (looping >>= fun s => s.build { o with escape := false }) c = (.ok e, c₂) →
      ∀ (l : Loop) (body : Callback) (b : Nat) (w w₁ w₂ : World) (r r' : Except Fault Value),
        (l.ofTable d.table body).run c₁ b w = .finished r w₁ →
        (l.ofTable e.table body).run c₂ b w = .finished r' w₂ → Ended r r') ∧
    ∃ c₀ c d c₁ e c₂ w₁ w₂, identity.build ⟨false, some "m", false, .off, .home⟩ .empty = (c₀, c) ∧
      identity.build ⟨true, none, false, .off, .home⟩ c = (.ok d, c₁) ∧
      (looping >>= fun s => s.build ⟨false, none, false, .off, .home⟩) c = (.ok e, c₂) ∧
      let w : World := { World.empty with names := [("x", 1)] }
      (passing.ofTable d.table dropping).run c₁ 5 w = .finished (.ok (.int 2)) w₁ ∧
        (passing.ofTable e.table dropping).run c₂ 5 w = .finished (.error (.detached "m")) w₂ := by
  refine (and_iff_right_of_imp ?_).mpr ?_
  · rintro ⟨c₀, c, d, c₁, e, c₂, w₁, w₂, -, hd, he, hleft, hright⟩ hall
    cases hall ⟨true, none, false, .off, .home⟩ c c₁ c₂ d e hd he _ _ 5 _ _ _ _ _ hleft hright
  · obtain ⟨d, c₁, hd, hpasses⟩ := Seed.exists_of_builds (s := identity)
      (o := ⟨true, none, false, .off, .home⟩) (T := passes)
      (c := (identity.build ⟨false, some "m", false, .off, .home⟩ .empty).2) (by decide +kernel)
    obtain ⟨e, c₂, he, hdetaches⟩ := Assembly.exists_of_makes (T := detaches)
      (m := looping >>= fun s => s.build ⟨false, none, false, .off, .home⟩)
      (c := (identity.build ⟨false, some "m", false, .off, .home⟩ .empty).2) (by decide +kernel)
    obtain ⟨w₁, hleft⟩ := run_of_passes hpasses
    obtain ⟨w₂, hright⟩ := run_of_detaches hdetaches
    exact ⟨_, _, d, c₁, e, c₂, w₁, w₂, rfl, hd, he, hleft, hright⟩

end Effects

end EffectLayers
