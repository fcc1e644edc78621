import EffectLayers.Dispatch
import EffectLayers.Proofs.Program.Ends
import EffectLayers.Proofs.Program.Held

/-!
# Programs that stop

A program stops if it ends, in a result or a fault, once it has enough calls to spend. Code stops
from a world on if it does so whatever it is given and whatever else was done by then.

## Main definitions

* `Prog.Stops`: a program stops.
* `StopsFrom`: code of one argument stops, as that of a callback may.
* `ContinuesFrom`: an operation in the manner of `bind` stops with every callback that does.
* `World.Adds`: more is in use and more was made, and nothing else is different.

## Main statements

* `Prog.Stops.bind`, `Prog.Stops.call` and the like: one rule for every way of making programs.
* `World.alive_mono`: what is alive stays so while more is in use or made.
-/

namespace EffectLayers

variable {c : Catalog} {w w' : World}

/-! ## Stopping -/

/-- The world after a function value is made of the callback. -/
def World.making (w : World) (f : Callback) : World := { w with functions := w.functions.push f }

namespace World

variable {f : Callback}

theorem functions_making : (w.making f).functions[w.functions.size]? = some f :=
  Array.getElem?_push_size

theorem Unnoticed.making (w : World) (f : Callback) : w.Unnoticed (w.making f) :=
  ⟨.push w f, rfl, rfl, rfl, rfl, fun _ _ h => h, Nat.le_refl _⟩

end World

namespace Prog

variable {α β : Type}

/-- A fault ends what would come after it. -/
theorem Ends.fault {p : Prog α} {k : α → Prog β} {e : Fault} (hp : p.Ends c w (.error e) w') :
    (p >>= k).Ends c w (.error e) w' := by
  obtain ⟨n, hp⟩ := hp
  refine ⟨n, fun b hb => ?_⟩
  rw [run_bind, hp b hb]
  rfl

/-- With enough calls to spend, the program ends, in a result or a fault. -/
def Stops (c : Catalog) (p : Prog α) (w : World) : Prop := ∃ r w', p.Ends c w r w'

namespace Stops

theorem done (r : Except Fault α) (w : World) : (Prog.done r).Stops c w := ⟨r, w, .done r w⟩

theorem pure (a : α) (w : World) : (Pure.pure a : Prog α).Stops c w := done (.ok a) w

theorem throw (e : Fault) (w : World) : (MonadExcept.throw e : Prog α).Stops c w :=
  done (.error e) w

/-- What comes after an answer. -/
theorem ends_bind {p : Prog α} {k : α → Prog β} {a : α} (hp : p.Ends c w (.ok a) w')
    (hk : (k a).Stops c w') : (p >>= k).Stops c w := by
  obtain ⟨r, w₁, hk⟩ := hk
  exact ⟨r, w₁, hp.bind hk⟩

/-- What comes next starts from the world that an answer was given in. -/
theorem bind {p : Prog α} {k : α → Prog β} (hp : p.Stops c w)
    (hk : ∀ a w', p.Ends c w (.ok a) w' → (k a).Stops c w') : (p >>= k).Stops c w := by
  obtain ⟨r, w₁, hp⟩ := hp
  cases r with
  | error e => exact ⟨.error e, w₁, hp.fault⟩
  | ok a => exact ends_bind hp (hk a w₁ hp)

theorem query_bind {q : Query} {k : q.Answer → Prog β}
    (hk : (k (q.answer c w).1).Stops c (q.answer c w).2) : (Prog.query q >>= k).Stops c w :=
  ends_bind (.query q w) hk

theorem inside {p : Prog α} (s : Scope) (hp : p.Stops c (w.entering s)) :
    (Prog.inside s p).Stops c w := by
  obtain ⟨r, w', n, hp⟩ := hp
  refine ⟨r, w'.leaving s w.toFrame, n, fun b hb => ?_⟩
  rw [run_inside, hp b hb]
  rfl

theorem holding {p : Prog α} (h : Holding) (hp : p.Stops c (w.entering (.holding h))) :
    (Prog.holding h p).Stops c w :=
  inside _ hp

/-- What comes after a part that something was held for. -/
theorem holding_bind {p : Prog α} {k : α → Prog β} {h : Holding}
    (hp : p.Stops c (w.entering (.holding h)))
    (hk : ∀ a w₁, p.Ends c (w.entering (.holding h)) (.ok a) w₁ →
      (k a).Stops c (w₁.leaving (.holding h) w.toFrame)) : (Prog.holding h p >>= k).Stops c w := by
  obtain ⟨r, w₁, hp⟩ := hp
  refine bind ⟨r, _, hp.holding h⟩ fun a w' ha => ?_
  obtain ⟨rfl, rfl⟩ := (hp.holding h).unique ha
  exact hk a w₁ hp

theorem reify_bind {f : Callback} {k : Value → Prog β}
    (hk : (k (.func w.functions.size)).Stops c (w.making f)) : (f.reify >>= k).Stops c w := by
  obtain ⟨r, w', n, hk⟩ := hk
  exact ⟨r, w', n, hk⟩

theorem call {id : FuncId} {f : Callback} {v : Value} (hf : w.functions[id]? = some f)
    (h : (f.code v).Stops c (w.entering (.holding { values := [.func id] }))) :
    ((Value.func id).call v).Stops c w := by
  obtain ⟨r, w', n, h⟩ := h
  refine ⟨r, w'.leaving (.holding { values := [.func id] }) w.toFrame, n + 1, fun b hb => ?_⟩
  obtain ⟨m, rfl⟩ : ∃ m, b = m + 1 := ⟨b - 1, by omega⟩
  rw [Value.call, run_call c m w v .done hf, h m (by omega)]
  rfl

theorem request {d : DefId} {e : Definition} {r : Request} {args : List Value}
    (he : c.get? d = some e)
    (h : (e.table.answer r args).Stops c (w.entering (.holding { definitions := [d] }))) :
    (DefId.request d r args).Stops c w := by
  obtain ⟨result, w', n, h⟩ := h
  refine ⟨result, w'.leaving (.holding { definitions := [d] }) w.toFrame, n + 1, fun b hb => ?_⟩
  obtain ⟨m, rfl⟩ : ∃ m, b = m + 1 := ⟨b - 1, by omega⟩
  rw [DefId.request, run_invoke c m w _ args .done he, h m (by omega)]
  rfl

end Stops

end Prog

/-! ## Code that stops -/

/-- From the world `w` on, the code stops whatever it is given. -/
def StopsFrom (c : Catalog) (w : World) (code : Value → Prog Value) : Prop :=
  ∀ v w', w.Grows w' → (code v).Stops c w'

/-- From the world `w` on, the operation stops with every callback that does. -/
def ContinuesFrom (c : Catalog) (w : World) (bind : Value → Callback → Prog Value) : Prop :=
  ∀ a f w', w.Grows w' → StopsFrom c w' f.code → (bind a f).Stops c w'

namespace StopsFrom

variable {code next : Value → Prog Value}

theorem mono (h : StopsFrom c w code) (hw : w.Grows w') : StopsFrom c w' code :=
  fun v w'' hw' => h v w'' (hw.trans hw')

theorem pure (c : Catalog) (w : World) : StopsFrom c w Pure.pure := fun v w' _ => .pure v w'

/-- One after the other. -/
theorem bind (h : StopsFrom c w code) (h' : StopsFrom c w next) :
    StopsFrom c w (fun v => do next (← code v)) :=
  fun v w' hw => (h v w' hw).bind fun u w'' hu => h' u w'' (hw.trans hu.grows)

/-- A function value stops if its code does. -/
theorem callback {id : FuncId} {f : Callback} (hf : w.functions[id]? = some f)
    (h : StopsFrom c w f.code) : StopsFrom c w (Value.func id).callback.code :=
  fun v _ hw => .call (hw.functions id f hf) (h v _ (hw.entering _))

end StopsFrom

/-! ## What is held stays so -/

namespace World

/-- More is in use and more was made, and all else that holds definitions is as before. -/
structure Adds (w w' : World) : Prop where
  names : w'.names = w.names
  ambient : w'.ambient = w.ambient
  saved : w'.saved = w.saved
  log : w'.log = w.log
  sequences : w'.sequences = w.sequences
  held : w.held ⊆ w'.held
  functions : ∀ (i : FuncId) (f : Callback), w.functions[i]? = some f → w'.functions[i]? = some f

theorem Adds.refl (w : World) : w.Adds w :=
  ⟨rfl, rfl, rfl, rfl, rfl, fun _ h => h, fun _ _ h => h⟩

theorem Adds.trans {u v w : World} (h : u.Adds v) (g : v.Adds w) : u.Adds w where
  names := g.names.trans h.names
  ambient := g.ambient.trans h.ambient
  saved := g.saved.trans h.saved
  log := g.log.trans h.log
  sequences := g.sequences.trans h.sequences
  held _ hh := g.held (h.held hh)
  functions i f hf := g.functions i f (h.functions i f hf)

theorem Adds.entering (w : World) (h : Holding) : w.Adds (w.entering (.holding h)) :=
  ⟨rfl, rfl, rfl, rfl, rfl, fun _ => List.mem_cons_of_mem h, fun _ _ h => h⟩

theorem Adds.making (w : World) (f : Callback) : w.Adds (w.making f) :=
  ⟨rfl, rfl, rfl, rfl, rfl, fun _ h => h, (Grows.push w f).functions⟩

theorem Reaches.mono {r : Reference} (h : w.Reaches r) (hw : w.Adds w') : w'.Reaches r := by
  induction h with
  | used hh hv hr => exact .used (hw.held hh) hv hr
  | logged hv hr => exact .logged (hw.log ▸ hv) hr
  | @through q r _ hr ih =>
    refine .through ih ?_
    cases q with
    | sequence s => simpa only [referencesOf, hw.sequences] using hr
    | function f =>
      cases hf : w.functions[f]? with
      | none => simp [referencesOf, hf] at hr
      | some g => simpa only [referencesOf, hf, hw.functions f g hf] using hr

theorem Held.mono {d : DefId} (h : w.Held c d) (hw : w.Adds w') : w'.Held c d := by
  obtain ⟨root, hroot, hd⟩ := h
  refine ⟨root, ?_, hd⟩
  cases hroot with
  | named h => exact .named (hw.names ▸ h)
  | installed h => exact .installed (hw.ambient.trans h)
  | saved h => exact .saved (hw.saved ▸ h)
  | used hg hd => exact .used (hw.held hg) hd
  | function hreach hg hd => exact .function (hreach.mono hw) (hw.functions _ _ hg) hd

/-- What is alive stays so while more is in use or made. -/
theorem alive_mono {d : DefId} (h : w.alive c d = true) (hw : w.Adds w') :
    w'.alive c d = true :=
  alive_iff_held.mpr ((alive_iff_held.mp h).mono hw)

end World

end EffectLayers
