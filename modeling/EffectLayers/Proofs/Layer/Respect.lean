import EffectLayers.Effects
import EffectLayers.Program.Invocation
import EffectLayers.Proofs.Assembly
import EffectLayers.Proofs.Program.Alike

/-!
# Operations that only call their callbacks

An operation can do nothing with a callback but call it, so alike callbacks make alike programs.
What is derived and what is layered on top keeps this.

## Main definitions

* `Source.Alike`: sources that hold the same, start alike and go on alike.
* `Seed.Respects`, `Table.Respects`: the operations that sequence only call their callbacks.

## Main statements

* `Seed.Respects.table`: what is derived only calls its callbacks.
* `Seed.Respects.identity`, `Seed.Respects.results`: so does what these effects give.
* `Table.Respects.escape`, `Table.Respects.carrier`, `Table.Respects.context`: so does what a
  layer gives.
-/

namespace EffectLayers

/-- Sources that hold the same, start alike and go on alike. -/
inductive Source.Alike : Source → Source → Prop where
  | mk {State : Type} {start start' : Closure (Prog State)}
      {step step' : State → Value → Prog (Option (Value × State))} {holds : State → Holding}
      (hholds : start.holds = start'.holds) (hstart : start.code.Alike start'.code)
      (hstep : ∀ s v, (step s v).Alike (step' s v)) :
      Source.Alike ⟨State, start, step, holds⟩ ⟨State, start', step', holds⟩

namespace Closure.Alike

variable {f g : Callback}

theorem call (h : f.Alike g) (v : Value) : (f.call v).Alike (g.call v) := by
  obtain ⟨code, holds⟩ := f
  obtain ⟨code', holds'⟩ := g
  obtain ⟨rfl, h⟩ := h
  exact (h v).holding _

theorem map {F G : (Value → Prog Value) → Value → Prog Value} (h : f.Alike g)
    (hFG : ∀ v, (F f.code v).Alike (G g.code v)) : (f.map F).Alike (g.map G) :=
  ⟨h.holds, hFG⟩

theorem reify (h : f.Alike g) : f.reify.Alike g.reify := by
  obtain ⟨code, holds⟩ := f
  obtain ⟨code', holds'⟩ := g
  obtain ⟨rfl, h⟩ := h
  exact .function _ h fun id => .refl _

end Closure.Alike

/-- The operations of a table that sequence only call their callbacks. -/
structure Table.Respects (t : Table) : Prop where
  bind : ∀ a (f g : Callback), f.Alike g → (t .bind a f).Alike (t .bind a g)
  map : ∀ a (f g : Callback), f.Alike g → (t .map a f).Alike (t .map a g)
  seq : ∀ g g' : Source, g.Alike g' → (t .seq g).Alike (t .seq g')

/-- The operations that a seed gives for sequencing only call their callbacks. -/
structure Seed.Respects (s : Seed) : Prop where
  bind : ∀ bind, s.ops .bind = some bind → ∀ a (f g : Callback), f.Alike g →
    (bind a f).Alike (bind a g)
  map : ∀ map, s.ops .map = some map → ∀ a (f g : Callback), f.Alike g →
    (map a f).Alike (map a g)
  seq : ∀ seq, s.ops .seq = some seq → ∀ g g' : Source, g.Alike g' → (seq g).Alike (seq g')

/-! ## What is derived -/

theorem Value.bindByMethod_alike (a : Value) {f g : Callback} (h : f.Alike g) :
    (a.bindByMethod f).Alike (a.bindByMethod g) := by
  cases a with
  | object id text method => exact h.reify.bind fun f => .refl _
  | only id content => exact (h.call content).holding _
  | carrier brand inner => exact h.reify.bind fun f => .refl _
  | _ => exact .refl _

namespace Seed

/-- The walk over a source, given how values are sequenced. -/
theorem seqFrom_alike {bind : Value → Callback → Prog Value} {lift : Value → Prog Value}
    (hbind : ∀ a (f g : Callback), f.Alike g → (bind a f).Alike (bind a g)) {State : Type}
    {start start' : Closure (Prog State)}
    {step step' : State → Value → Prog (Option (Value × State))} {holds : State → Holding}
    (hstep : ∀ s v, (step s v).Alike (step' s v)) (n : Nat) (state : State) (input : Value) :
    (seqFrom bind lift ⟨State, start, step, holds⟩ n state input).Alike
      (seqFrom bind lift ⟨State, start', step', holds⟩ n state input) := by
  induction n generalizing state input with
  | zero => exact .refl _
  | succ n ih =>
    refine Prog.Alike.holding _ (.bind (((hstep state input).holding _).holding _) fun r => ?_)
    cases r with
    | none => exact .refl _
    | some r => exact Prog.Alike.holding _ (hbind _ _ _ ⟨rfl, fun v => ih r.2 v⟩)

variable {s : Seed}

theorem Respects.bind_alike (h : s.Respects) (a : Value) {f g : Callback} (hfg : f.Alike g) :
    (s.bind a f).Alike (s.bind a g) := by
  cases hbind : s.ops .bind with
  | some bind =>
    simp only [Seed.bind, hbind]
    exact h.bind bind hbind a f g hfg
  | none =>
    cases hjoin : s.ops .join with
    | none =>
      simp only [Seed.bind, hbind, hjoin]
      exact a.bindByMethod_alike hfg
    | some join =>
      cases hmap : s.ops .map with
      | none =>
        simp only [Seed.bind, hbind, hjoin, hmap]
        exact a.bindByMethod_alike hfg
      | some map =>
        simp only [Seed.bind, hbind, hjoin, hmap]
        exact (h.map map hmap a f g hfg).bind_left join

/-- What is derived only calls its callbacks. -/
theorem Respects.table (h : s.Respects) (lift : Value → Prog Value) :
    (s.table lift).Respects where
  bind a f g hfg := h.bind_alike a hfg
  map a f g hfg := by
    simp only [Seed.table, Seed.map]
    cases hmap : s.ops .map with
    | some map => exact h.map map hmap a f g hfg
    | none => exact h.bind_alike a (hfg.map fun v => (hfg.code v).bind fun b => .refl _)
  seq g g' hg := by
    simp only [Seed.table, Seed.seq]
    cases hseq : s.ops .seq with
    | some seq => exact h.seq seq hseq g g' hg
    | none =>
      obtain ⟨hholds, hstart, hstep⟩ := hg
      rename_i State start start' step step' holds
      obtain ⟨code, held⟩ := start
      obtain ⟨code', held'⟩ := start'
      obtain rfl := hholds
      refine Prog.Alike.holding _ (.bounded fun n => (hstart.holding _).bind fun state => ?_)
      exact seqFrom_alike (fun a f g => h.bind_alike a) hstep n state .unit

theorem Respects.definition? (h : s.Respects) {id : DefId} {d : Definition}
    (hd : s.definition? id = some d) : d.table.Respects := by
  obtain ⟨lift, -, rfl⟩ := Option.map_eq_some_iff.mp hd
  exact h.table lift

end Seed

/-! ## Layers -/

theorem Installer.around_alike (a : Installer) {α : Type} {p q : Prog α} (h : p.Alike q) :
    (a.around p).Alike (a.around q) := by
  refine Prog.Alike.bind_right _ fun alive => ?_
  cases alive with
  | false => exact .refl _
  | true => exact h.inside _

namespace Table.Respects

variable {inner : Definition} (h : inner.table.Respects)

include h

theorem escape : (Escape.seed inner).Respects := by
  rw [Escape.seed]
  split
  · exact {
      bind := fun _ hbind a f g hfg => Option.some.inj hbind ▸ h.bind a f g hfg
      map := fun _ hmap a f g hfg => Option.some.inj hmap ▸ h.map a f g hfg
      seq := nofun }
  · constructor
    case bind =>
      intro _ hbind a f g hfg
      obtain rfl := Option.some.inj hbind
      refine h.bind a _ _ (hfg.map fun v => ?_)
      split
      · exact .refl _
      · exact hfg.code v
    case map =>
      intro _ hmap a f g hfg
      obtain rfl := Option.some.inj hmap
      refine h.map a _ _ (hfg.map fun v => ?_)
      split
      · exact .refl _
      · exact hfg.code v
    case seq => exact nofun

theorem carrier (w : Packing) : (w.seed inner).Respects := by
  have hbindWith {bind : Value → Callback → Prog Value}
      (hbind : ∀ a (f g : Callback), f.Alike g → (bind a f).Alike (bind a g)) (a : Value)
      (f g : Callback) (hfg : f.Alike g) : (w.bindWith bind a f).Alike (w.bindWith bind a g) := by
    unfold Packing.bindWith Packing.packed
    rw [hfg.holds]
    exact Prog.Alike.bind_right _ fun a => (hbind a f g hfg).bind_left _
  constructor
  case bind =>
    intro _ hbind
    obtain rfl := Option.some.inj hbind
    apply hbindWith
    intro a f g hfg
    exact h.bind a _ _ (hfg.map fun v => (hfg.code v).bind_left _)
  case map =>
    intro _ hmap
    obtain rfl := Option.some.inj hmap
    exact hbindWith h.map
  case seq => exact nofun

theorem coercion : (Coercion.seed inner).Respects := by
  constructor
  case bind =>
    intro _ hbind a f g hfg
    obtain rfl := Option.some.inj hbind
    exact h.bind a _ _ (hfg.map fun v => (hfg.code v).bind_left _)
  case map =>
    intro _ hmap a f g hfg
    obtain rfl := Option.some.inj hmap
    exact h.map a f g hfg
  case seq =>
    -- The yields are coerced after the step that produced them.
    intro _ hseq g g' hg
    obtain rfl := Option.some.inj hseq
    obtain ⟨hholds, hstart, hstep⟩ := hg
    refine h.seq _ _ ⟨congrArg (· ++ _) hholds, hstart, fun s v => ?_⟩
    refine ((hstep s v).holding _).bind fun r => ?_
    cases r <;> exact .refl _

theorem context (mode : ContextMode) (self : DefId) : (inner.contextSeed mode self).Respects := by
  cases mode with
  | off | runOnly =>
    constructor
    case bind =>
      intro _ hbind a f g hfg
      obtain rfl := Option.some.inj hbind
      exact h.bind a f g hfg
    case map =>
      intro _ hmap a f g hfg
      obtain rfl := Option.some.inj hmap
      exact h.map a f g hfg
    case seq => exact nofun
  | full =>
    constructor
    case bind =>
      intro _ hbind a f g hfg
      obtain rfl := Option.some.inj hbind
      exact h.bind a _ _ (hfg.map fun v => Installer.around_alike _ (hfg.code v))
    case map =>
      intro _ hmap a f g hfg
      obtain rfl := Option.some.inj hmap
      exact h.map a f g hfg
    case seq =>
      intro _ hseq g g' hg
      obtain rfl := Option.some.inj hseq
      obtain ⟨hholds, hstart, hstep⟩ := hg
      refine h.seq _ _ ⟨hholds, Installer.around_alike _ hstart, fun s v => ?_⟩
      exact Installer.around_alike _ (hstep s v)

end Table.Respects

/-! ## Seeds -/

namespace Seed.Respects

variable {s : Seed}

theorem identity : Effects.identity.Respects := by
  refine ⟨fun _ hbind a f g hfg => ?_, nofun, nofun⟩
  obtain rfl := Option.some.inj hbind
  exact hfg.call a

theorem results : Effects.results.Respects := by
  refine ⟨fun _ hbind a f g hfg => ?_, nofun, nofun⟩
  obtain rfl := Option.some.inj hbind
  have heach (vs found : List Value) :
      (Effects.bindEach f found vs).Alike (Effects.bindEach g found vs) := by
    induction vs generalizing found with
    | nil => exact .refl _
    | cons v vs ih =>
      refine (((hfg.call v).holding _).holding _).bind fun r => ?_
      exact Prog.Alike.bind_right _ fun results => ih _
  exact Prog.Alike.bind_right _ fun vs => (heach vs []).bind_left _

end Seed.Respects

end EffectLayers
