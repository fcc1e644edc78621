import EffectLayers.Proofs.Program.Computes
import EffectLayers.Proofs.Program.Held

/-!
# What is in use, in any order

What is in use matters only for what is alive, and there neither in which order things are held nor
how often. So what one part of a program holds may be held around another part as well, and
holdings may be exchanged and put together.

## Main definitions

* `Holding.Same`: the same is held, in any order and any number of times.
* `World.SameUse`: worlds in which the same is in use.

## Main statements

* `World.SameUse.alive_eq`: the same is alive where the same is in use.
* `Prog.run_sameUse`: where the same is in use, a program runs in the same way.
* `Prog.Same.holding_congr`, `Prog.Same.holding_holding`, `Prog.Same.holding_bind`: rules for what
  is held.
-/

namespace EffectLayers

variable {α β : Type}

/-- The same definitions are held, and values that refer to the same, in any order and any number
of times. -/
structure Holding.Same (g h : Holding) : Prop where
  references : ∀ r, r ∈ Value.referencesAll g.values ↔ r ∈ Value.referencesAll h.values
  definitions : ∀ d, d ∈ g.definitions ↔ d ∈ h.definitions

namespace Holding.Same

variable {g h g' h' : Holding}

theorem refl (h : Holding) : h.Same h := ⟨fun _ => .rfl, fun _ => .rfl⟩

theorem append (hgh : g.Same h) (hgh' : g'.Same h') : (g ++ g').Same (h ++ h') where
  references r := by
    simp only [values_append, Value.referencesAll_append, List.mem_append, hgh.references,
      hgh'.references]
  definitions d := by
    simp only [definitions_append, List.mem_append, hgh.definitions, hgh'.definitions]

/-- What is held inside and what is held around it. -/
theorem swap (g h k : Holding) : (h ++ (g ++ k)).Same (g ++ h ++ k) where
  references r := by
    simp only [values_append, Value.referencesAll_append, List.mem_append]
    exact or_left_comm.trans or_assoc.symm
  definitions d := by
    simp only [definitions_append, List.mem_append]
    exact or_left_comm.trans or_assoc.symm

end Holding.Same

/-! ## Worlds in which the same is in use -/

/-- Worlds that differ only in what is in use, which is the same. -/
inductive World.SameUse (w : World) : World → Prop where
  | mk (held : List Holding) (same : w.inUse.Same { w.toFrame with held := held }.inUse) :
      World.SameUse w { w with held := held }

namespace World.SameUse

variable {w w' : World}

theorem reaches (h : w.SameUse w') {r : Reference} (hr : w.Reaches r) : w'.Reaches r := by
  obtain ⟨held, same⟩ := h
  induction hr with
  | @used g v r hg hv hr =>
    have hused : r ∈ Value.referencesAll w.inUse.values :=
      Value.mem_referencesAll.mpr ⟨v, List.mem_flatMap.mpr ⟨g, hg, hv⟩, hr⟩
    obtain ⟨u, hu, hr⟩ := Value.mem_referencesAll.mp ((same.references r).mp hused)
    obtain ⟨g', hg', hu⟩ := List.mem_flatMap.mp hu
    exact .used hg' hu hr
  | logged hv hr => exact .logged hv hr
  | through _ hr ih => exact .through ih hr

theorem holder (h : w.SameUse w') {d : DefId} (hd : w.Holder d) : w'.Holder d := by
  have hreaches {r : Reference} := h.reaches (r := r)
  obtain ⟨held, same⟩ := h
  cases hd with
  | named h => exact .named h
  | installed h => exact .installed h
  | saved h => exact .saved h
  | used hg hd =>
    have hused := (same.definitions d).mp (List.mem_flatMap.mpr ⟨_, hg, hd⟩)
    obtain ⟨g', hg', hd⟩ := List.mem_flatMap.mp hused
    exact .used hg' hd
  | function hreach hg hd => exact .function (hreaches hreach) hg hd

theorem refl (w : World) : w.SameUse w := .mk w.held (.refl _)

theorem symm (h : w.SameUse w') : w'.SameUse w := by
  obtain ⟨held, same⟩ := h
  exact .mk w.held ⟨fun r => (same.references r).symm, fun d => (same.definitions d).symm⟩

/-- The same is alive where the same is in use. -/
theorem alive_eq (h : w.SameUse w') (c : Catalog) (d : DefId) : w'.alive c d = w.alive c d := by
  refine Bool.eq_iff_iff.mpr (alive_iff_held.trans (Iff.trans ?_ alive_iff_held.symm))
  exact ⟨fun ⟨root, hroot, hd⟩ => ⟨root, h.symm.holder hroot, hd⟩,
    fun ⟨root, hroot, hd⟩ => ⟨root, h.holder hroot, hd⟩⟩

theorem entering {g h : Holding} (hw : w.SameUse w') (hgh : g.Same h) :
    (w.entering (.holding g)).SameUse (w'.entering (.holding h)) := by
  obtain ⟨held, same⟩ := hw
  exact .mk (h :: held) (hgh.append same)

theorem entering_scope (hw : w.SameUse w') (s : Scope) :
    (w.entering s).SameUse (w'.entering s) := by
  cases s with
  | holding g => exact hw.entering (.refl g)
  | installed d =>
    obtain ⟨held, same⟩ := hw
    exact .mk ({ definitions := [d] } :: held)
      ((Holding.Same.refl { definitions := [d] }).append same)

/-- A scope is left for what was in use before it. -/
theorem leaving {u u' : World} (hu : u.SameUse u') (hw : w.SameUse w') (s : Scope) :
    (u.leaving s w.toFrame).SameUse (u'.leaving s w'.toFrame) := by
  obtain ⟨_, _⟩ := hu
  obtain ⟨held, same⟩ := hw
  cases s <;> exact .mk held same

theorem push (h : w.SameUse w') (f : Callback) :
    World.SameUse { w with functions := w.functions.push f }
      { w' with functions := w'.functions.push f } := by
  obtain ⟨held, same⟩ := h
  exact .mk held same

/-- Requests are answered in the same way. -/
theorem answer (h : w.SameUse w') (c : Catalog) (q : Query) :
    (q.answer c w').1 = (q.answer c w).1 ∧ (q.answer c w).2.SameUse (q.answer c w').2 := by
  have halive := h.alive_eq c
  obtain ⟨held, same⟩ := h
  cases q with
  | alive d => exact ⟨halive d, .mk held same⟩
  | item s position =>
    simp only [Query.answer]
    cases w.sequences[s]? <;> exact ⟨rfl, .mk held same⟩
  | _ => exact ⟨rfl, .mk held same⟩

end World.SameUse

/-! ## Runs -/

/-- Outcomes that are the same, but for worlds in which the same is in use. -/
inductive Outcome.SameUse : Outcome α → Outcome α → Prop where
  | halted (h : Halt) : SameUse (.halted h) (.halted h)
  | finished (r : Except Fault α) {w w' : World} (hw : w.SameUse w') :
      SameUse (.finished r w) (.finished r w')

theorem Outcome.SameUse.onward {o o' : Outcome α} {k l : Except Fault α → World → Outcome β}
    (h : o.SameUse o') (hk : ∀ r w w', w.SameUse w' → (k r w).SameUse (l r w')) :
    (o.onward k).SameUse (o'.onward l) := by
  cases h with
  | halted h => exact .halted h
  | finished r hw => exact hk r _ _ hw

/-- When something else is in use again, nothing is left of the difference. -/
theorem Outcome.SameUse.restored {o o' : Outcome α} (h : o.SameUse o') (held : List Holding)
    (saved : List (Option DefId)) :
    (o.onward fun r u => .finished r { u with held := held, saved := saved }).Alike
      (o'.onward fun r u => .finished r { u with held := held, saved := saved }) := by
  cases h with
  | halted h => exact .halted h
  | finished r hw =>
    obtain ⟨_, _⟩ := hw
    exact .finished r (.refl _)

namespace Prog

variable {c : Catalog} {b rounds : Nat} {nested : Prog Value → World → Outcome Value}

theorem runWith_sameUse
    (hnested : ∀ p w w', w.SameUse w' → (nested p w).SameUse (nested p w')) (p : Prog α)
    {w w' : World} (hw : w.SameUse w') :
    (p.runWith c rounds nested w).SameUse (p.runWith c rounds nested w') := by
  induction p generalizing w w' with
  | done r => exact .finished r hw
  | halt h => exact .halted h
  | bounded _ ih => exact ih rounds hw
  | ask q next ih =>
    obtain ⟨hanswer, hw'⟩ := hw.answer c q
    change ((next (q.answer c w).1).runWith c rounds nested (q.answer c w).2).SameUse
      ((next (q.answer c w').1).runWith c rounds nested (q.answer c w').2)
    rw [hanswer]
    exact ih _ hw'
  | function h code next _ ih =>
    have hsize : w'.functions.size = w.functions.size := by
      obtain ⟨held, same⟩ := hw
      rfl
    simp only [runWith, hsize]
    exact ih _ (hw.push _)
  | call f arg next ih =>
    have hfunctions : w'.functions = w.functions := by
      obtain ⟨held, same⟩ := hw
      rfl
    cases hf : w.functions[f]? with
    | none =>
      simp only [runWith, hf, hfunctions]
      exact .halted _
    | some found =>
      rw [runWith_call c w rounds nested arg next hf,
        runWith_call c w' rounds nested arg next (hfunctions ▸ hf)]
      exact (hnested _ _ _ (hw.entering_scope _)).onward fun r u u' hu => ih r (hu.leaving hw _)
  | invoke d request args next ih =>
    cases hd : c.get? d with
    | none =>
      simp only [runWith, hd]
      exact .halted _
    | some definition =>
      rw [runWith_invoke c w rounds nested request args next hd,
        runWith_invoke c w' rounds nested request args next hd]
      exact (hnested _ _ _ (hw.entering_scope _)).onward fun r u u' hu => ih r (hu.leaving hw _)
  | within s body next ih ihNext =>
    rw [runWith_within, runWith_within]
    exact (ih (hw.entering_scope s)).onward fun r u u' hu => ihNext r (hu.leaving hw s)

/-- Where the same is in use, a program runs in the same way. -/
theorem run_sameUse (p : Prog α) {w w' : World} (hw : w.SameUse w') :
    (p.run c b w).SameUse (p.run c b w') := by
  have hnested (b : Nat) (p : Prog Value) (w w' : World) (hw : w.SameUse w') :
      (nested c b p w).SameUse (nested c b p w') := by
    induction b generalizing p w w' with
    | zero => exact .halted _
    | succ b ih =>
      rw [nested_succ, nested_succ]
      exact runWith_sameUse ih p hw
  exact runWith_sameUse (hnested b) p hw

/-! ## Rules for what is held -/

theorem run_holding (h : Holding) (p : Prog α) (w : World) :
    (holding h p).run c b w = (p.run c b (w.entering (.holding h))).onward
      fun r u => .finished r { u with held := w.held, saved := w.saved } :=
  run_inside c b w (.holding h) p

namespace Same

variable {p q : Prog α} {f g : α → Prog β} {h k : Holding}

instance : Trans (@Same α) (@Same α) (@Same α) := ⟨trans⟩

theorem bind_right (p : Prog α) (hfg : ∀ a, (f a).Same (g a)) : (p >>= f).Same (p >>= g) := by
  intro c b w
  rw [run_bind, run_bind]
  rcases p.run c b w with reason | ⟨e | a, w'⟩
  · exact .halted reason
  · exact .finished _ (.refl w')
  · exact hfg a c b w'

theorem bind (hpq : p.Same q) (hfg : ∀ a, (f a).Same (g a)) : (p >>= f).Same (q >>= g) :=
  (hpq.bind_left f).trans (bind_right q hfg)

/-- It does not matter in which order and how often something is held. -/
theorem holding_congr (hhk : h.Same k) (p : Prog α) :
    (Prog.holding h p).Same (Prog.holding k p) := by
  intro c b w
  rw [run_holding, run_holding]
  exact (run_sameUse p ((World.SameUse.refl w).entering hhk)).restored w.held w.saved

/-- What is held inside is held around it. -/
theorem holding_holding (h k : Holding) (p : Prog α) :
    (Prog.holding h (Prog.holding k p)).Same (Prog.holding (h ++ k) p) := by
  intro c b w
  have huse : ((w.entering (.holding h)).entering (.holding k)).SameUse
      (w.entering (.holding (h ++ k))) := .mk _ (.swap h k w.inUse)
  have hrestored := (run_sameUse (c := c) (b := b) p huse).restored w.held w.saved
  rw [run_holding, run_holding, run_holding]
  -- The two scopes are left one after the other; what is in use then is what was so before both.
  generalize p.run c b ((w.entering (.holding h)).entering (.holding k)) = o at hrestored
  cases o <;> exact hrestored

/-- What is held around a sequence is held around each of its parts. -/
theorem holding_bind (h : Holding) (p : Prog α) (f : α → Prog β) :
    (Prog.holding h (p >>= f)).Same (Prog.holding h p >>= fun a => Prog.holding h (f a)) := by
  intro c b w
  rw [run_holding, run_bind, run_bind, run_holding]
  cases hrun : p.run c b (w.entering (.holding h)) with
  | halted reason => exact .halted reason
  | finished r u =>
    cases r with
    | error e => exact .finished _ (.refl _)
    | ok a =>
      obtain ⟨hheld, hsaved⟩ := held_of_run p hrun
      have hback : World.entering { u with held := w.held, saved := w.saved } (.holding h) = u := by
        obtain ⟨⟨ambient, saved, held⟩, _⟩ := u
        obtain rfl : held = h :: w.held := hheld
        obtain rfl : saved = w.saved := hsaved
        rfl
      simp only [Outcome.bind, Outcome.onward_finished, run_holding, hback]
      exact ((Alike.refl (f a)).run c b (.refl u)).onward fun r u u' hu =>
        .finished r (hu.leaving (.holding h) w.toFrame)

theorem holding (hhk : h.Same k) (hpq : p.Same q) :
    (Prog.holding h p).Same (Prog.holding k q) := by
  refine trans (fun c b w => ?_) (holding_congr hhk q)
  rw [run_holding, run_holding]
  have hrun := hpq c b (w.entering (.holding h))
  exact hrun.onward fun r u u' hu => .finished r (hu.leaving (.holding h) w.toFrame)

section

variable {us vs : List Value}

theorem keeping (hrefs : ∀ r, r ∈ Value.referencesAll us ↔ r ∈ Value.referencesAll vs)
    (hpq : p.Same q) : (Prog.keeping us p).Same (Prog.keeping vs q) :=
  holding ⟨hrefs, fun _ => .rfl⟩ hpq

theorem keeping_keeping (us vs : List Value) (p : Prog α) :
    (Prog.keeping us (Prog.keeping vs p)).Same (Prog.keeping (us ++ vs) p) :=
  holding_holding { values := us } { values := vs } p

/-- What is computed from the result of a scope is computed after it. -/
theorem keeping_map {p : Prog β} {f : α → β}
    (hrefs : ∀ r, r ∈ Value.referencesAll us ↔ r ∈ Value.referencesAll vs)
    (hp : p.Same (do return f (← q))) :
    (Prog.keeping us p).Same (do return f (← Prog.keeping vs q)) :=
  (keeping hrefs hp).trans (Alike.inside_bind _ q fun a => .ok (f a)).same

end

end Same

end Prog

end EffectLayers
