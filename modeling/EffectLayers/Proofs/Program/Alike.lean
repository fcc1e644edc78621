import EffectLayers.Proofs.Program.Similar

/-!
# Programs that are alike

Two programs are alike if they differ only in where results that are at hand already are
computed. Function values made of alike code are alike, and so are the worlds that know them: no
run tells them apart.

## Main definitions

* `Prog.Alike`: the least congruence by which a scope around a result is left at once, and what is
  computed from the result of a scope is computed in it or after it.
* `Closure.Alike`, `World.Alike`, `Outcome.Alike`: what is made of alike programs.

## Main statements

* `Prog.Alike.bind`: sequences of alike programs are alike.
* `Prog.Alike.run`: alike programs run alike.
-/

namespace EffectLayers

variable {α β γ : Type}

/-- Programs that differ only in where results that are at hand already are computed. -/
inductive Prog.Alike : {α : Type} → Prog α → Prog α → Prop where
  | done {α : Type} (r : Except Fault α) : Alike (.done r) (.done r)
  | halt {α : Type} (h : Halt) : Alike (.halt h : Prog α) (.halt h)
  | bounded {α : Type} {f g : Nat → Prog α} (h : ∀ n, Alike (f n) (g n)) :
      Alike (.bounded f) (.bounded g)
  | ask {α : Type} (q : Query) {f g : q.Answer → Prog α} (h : ∀ a, Alike (f a) (g a)) :
      Alike (.ask q f) (.ask q g)
  | function {α : Type} (holds : Holding) {code code' : Value → Prog Value} {f g : FuncId → Prog α}
      (hcode : ∀ v, Alike (code v) (code' v)) (h : ∀ id, Alike (f id) (g id)) :
      Alike (.function holds code f) (.function holds code' g)
  | call {α : Type} (f : FuncId) (arg : Value) {k l : Except Fault Value → Prog α}
      (h : ∀ r, Alike (k r) (l r)) : Alike (.call f arg k) (.call f arg l)
  | invoke {α : Type} (d : DefId) (r : Request) (args : List Value)
      {k l : Except Fault Value → Prog α} (h : ∀ r, Alike (k r) (l r)) :
      Alike (.invoke d r args k) (.invoke d r args l)
  | within {α β : Type} (s : Scope) {p q : Prog β} {k l : Except Fault β → Prog α}
      (hp : Alike p q) (h : ∀ r, Alike (k r) (l r)) : Alike (.within s p k) (.within s q l)
  | symm {α : Type} {p q : Prog α} (h : Alike p q) : Alike q p
  | trans {α : Type} {p q r : Prog α} (h : Alike p q) (h' : Alike q r) : Alike p r
  /-- A scope around a result is left at once. -/
  | around {α β : Type} (s : Scope) (r : Except Fault β) {k l : Except Fault β → Prog α}
      (h : ∀ r, Alike (k r) (l r)) : Alike (.within s (.done r) k) (l r)
  /-- What is computed from the result of a scope is computed in it or after it. -/
  | after {α β γ : Type} (s : Scope) {p q : Prog β} (f : β → Except Fault γ)
      {k l : Except Fault γ → Prog α} (hp : Alike p q) (h : ∀ r, Alike (k r) (l r)) :
      Alike (.within s (p >>= fun a => .done (f a)) k) (.within s q fun r => l (r >>= f))

namespace Prog.Alike

theorem refl (p : Prog α) : p.Alike p := by
  induction p with
  | done r => exact done r
  | halt h => exact halt h
  | bounded _ ih => exact bounded ih
  | ask q _ ih => exact ask q ih
  | function h _ _ ihcode ih => exact function h ihcode ih
  | call f arg _ ih => exact call f arg ih
  | invoke d r args _ ih => exact invoke d r args ih
  | within s _ _ ih ihnext => exact within s ih ihnext

theorem of_eq {p q : Prog α} (h : p = q) : p.Alike q := h ▸ refl p

theorem bind_left {p q : Prog α} (h : p.Alike q) (f : α → Prog β) :
    (p >>= f).Alike (q >>= f) := by
  induction h with
  | done r => exact refl _
  | halt h => exact halt h
  | bounded _ ih => exact bounded fun n => ih n f
  | ask q _ ih => exact ask q fun a => ih a f
  | function h hcode _ _ ih => exact function h hcode fun id => ih id f
  | call id arg _ ih => exact call id arg fun r => ih r f
  | invoke d r args _ ih => exact invoke d r args fun r => ih r f
  | within s hp _ _ ih => exact within s hp fun r => ih r f
  | symm _ ih => exact (ih f).symm
  | trans _ _ ih ih' => exact (ih f).trans (ih' f)
  | around s r _ ih => exact around s r fun r => ih r f
  | after s g hp _ _ ih => exact after s g hp fun r => ih r f

theorem bind_right (p : Prog α) {f g : α → Prog β} (hf : ∀ a, (f a).Alike (g a)) :
    (p >>= f).Alike (p >>= g) := by
  induction p with
  | done r =>
    cases r with
    | ok a => exact hf a
    | error e => exact done (.error e)
  | halt h => exact halt h
  | bounded _ ih => exact bounded fun n => ih n hf
  | ask q _ ih => exact ask q fun a => ih a hf
  | function h code _ _ ih => exact function h (fun v => refl (code v)) fun id => ih id hf
  | call id arg _ ih => exact call id arg fun r => ih r hf
  | invoke d r args _ ih => exact invoke d r args fun r => ih r hf
  | within s p _ _ ih => exact within s (refl p) fun r => ih r hf

/-- Sequences of alike programs are alike. -/
theorem bind {p q : Prog α} {f g : α → Prog β} (h : p.Alike q) (hf : ∀ a, (f a).Alike (g a)) :
    (p >>= f).Alike (q >>= g) :=
  (h.bind_left f).trans (bind_right q hf)

theorem inside (s : Scope) {p q : Prog α} (h : p.Alike q) :
    (Prog.inside s p).Alike (Prog.inside s q) :=
  within s h fun r => done r

theorem holding (h : Holding) {p q : Prog α} (hp : p.Alike q) :
    (Prog.holding h p).Alike (Prog.holding h q) :=
  hp.inside _

/-- A scope around a result is left at once. -/
theorem inside_done (s : Scope) (r : Except Fault α) :
    (Prog.inside s (.done r)).Alike (.done r) :=
  around s r .done

/-- What is computed from the result of a scope is computed in it or after it. -/
theorem inside_bind (s : Scope) (p : Prog α) (f : α → Except Fault β) :
    (Prog.inside s (p >>= fun a => .done (f a))).Alike
      (Prog.inside s p >>= fun a => .done (f a)) := by
  refine (after s f (refl p) .done).trans (within s (refl p) fun r => ?_)
  cases r with
  | ok a => exact done (f a)
  | error e => exact done (.error e)

theorem similar {p q : Prog α} (h : p.Alike q) : p.Similar q := by
  induction h with
  | done r => exact .done r
  | halt h => exact .halt h
  | bounded _ ih => exact .bounded ih
  | ask q _ ih => exact .ask q ih
  | function holds _ _ ihcode ih => exact .function (.refl holds) ihcode ih
  | call f arg _ ih => exact .call f arg ih
  | invoke d r args _ ih => exact .invoke d r args ih
  | within s _ _ ihp ih => exact .within (.refl s) ihp ih
  | symm _ ih => exact ih.symm
  | trans _ _ ih ih' => exact ih.trans ih'
  | around s r _ ih => exact .around s r ih
  | after s f _ _ ihp ih => exact .after s f ihp ih

end Prog.Alike

/-! ## Worlds -/

/-- Callbacks that hold the same and whose code is alike. -/
structure Closure.Alike (f g : Callback) : Prop where
  holds : f.holds = g.holds
  code : ∀ v, (f.code v).Alike (g.code v)

theorem Closure.Alike.refl (f : Callback) : f.Alike f := ⟨rfl, fun _ => .refl _⟩

/-- Worlds that differ in function values that are alike. -/
inductive World.Alike (w : World) : World → Prop where
  | mk (fs : Array Callback) (size : fs.size = w.functions.size)
      (alike : ∀ (i : FuncId) f g, w.functions[i]? = some f → fs[i]? = some g → Closure.Alike f g) :
      World.Alike w { w with functions := fs }

/-- Outcomes that are the same, but for worlds that are alike. -/
inductive Outcome.Alike : Outcome α → Outcome α → Prop where
  | halted (h : Halt) : Alike (.halted h) (.halted h)
  | finished (r : Except Fault α) {w w' : World} (hw : w.Alike w') :
      Alike (.finished r w) (.finished r w')

theorem Closure.Alike.symm {f g : Callback} (h : f.Alike g) : g.Alike f :=
  ⟨h.holds.symm, fun v => (h.code v).symm⟩

theorem Closure.Alike.trans {f g k : Callback} (h : f.Alike g) (h' : g.Alike k) : f.Alike k :=
  ⟨h.holds.trans h'.holds, fun v => (h.code v).trans (h'.code v)⟩

theorem Closure.Alike.similar {f g : Callback} (h : f.Alike g) : f.Similar g :=
  ⟨h.holds ▸ .refl _, fun v => (h.code v).similar⟩

namespace World.Alike

variable {w w' w'' : World}

theorem refl (w : World) : w.Alike w :=
  .mk w.functions rfl fun _ f _ hf hg => Option.some.inj (hf.symm.trans hg) ▸ .refl f

theorem symm (h : w.Alike w') : w'.Alike w := by
  obtain ⟨fs, hsize, h⟩ := h
  exact .mk w.functions hsize.symm fun i f g hf hg => (h i g f hg hf).symm

theorem trans (h : w.Alike w') (h' : w'.Alike w'') : w.Alike w'' := by
  obtain ⟨fs, hsize, h⟩ := h
  obtain ⟨gs, hsize', h'⟩ := h'
  refine .mk gs (hsize'.trans hsize) fun i f g hf hg => ?_
  have hi : i < fs.size := by
    rw [← hsize']
    exact (Array.getElem?_eq_some_iff.mp hg).1
  have hk : fs[i]? = some fs[i] := Array.getElem?_eq_getElem hi
  exact (h i f _ hf hk).trans (h' i _ g hk hg)

/-- Function values that are made next are alike if their code is. -/
theorem push (h : w.Alike w') {f g : Callback} (hfg : f.Alike g) :
    World.Alike { w with functions := w.functions.push f }
      { w' with functions := w'.functions.push g } := by
  obtain ⟨fs, hsize, h⟩ := h
  refine .mk (fs.push g) (by simp [hsize]) fun i f' g' hf' hg' => ?_
  simp only [Array.getElem?_push] at hf' hg'
  by_cases hi : i = w.functions.size
  · rw [if_pos hi] at hf'
    rw [if_pos (hi.trans hsize.symm)] at hg'
    exact Option.some.inj hf' ▸ Option.some.inj hg' ▸ hfg
  · rw [if_neg hi] at hf'
    rw [if_neg (fun h => hi (h.trans hsize))] at hg'
    exact h i f' g' hf' hg'

theorem entering (h : w.Alike w') (s : Scope) : (w.entering s).Alike (w'.entering s) := by
  obtain ⟨fs, hsize, h⟩ := h
  exact .mk fs hsize h

theorem leaving (h : w.Alike w') (s : Scope) (before : Frame) :
    (w.leaving s before).Alike (w'.leaving s before) := by
  obtain ⟨fs, hsize, h⟩ := h
  exact .mk fs hsize h

theorem toFrame_eq (h : w.Alike w') : w'.toFrame = w.toFrame := by
  obtain ⟨fs, -, -⟩ := h
  rfl

/-- Which function value is found is alike. -/
theorem getElem? (h : w.Alike w') (i : FuncId) :
    (w.functions[i]? = none ∧ w'.functions[i]? = none) ∨
      ∃ f g, w.functions[i]? = some f ∧ w'.functions[i]? = some g ∧ f.Alike g := by
  obtain ⟨fs, hsize, h⟩ := h
  by_cases hi : i < w.functions.size
  · have hi' : i < fs.size := hsize ▸ hi
    have hf : w.functions[i]? = some w.functions[i] := Array.getElem?_eq_getElem hi
    have hg : fs[i]? = some fs[i] := Array.getElem?_eq_getElem hi'
    exact .inr ⟨_, _, hf, hg, h i _ _ hf hg⟩
  · have hi := Nat.le_of_not_lt hi
    have hi' := Nat.le_trans (Nat.le_of_eq hsize) hi
    exact .inl ⟨Array.getElem?_eq_none hi, Array.getElem?_eq_none hi'⟩

/-! ### What is alive -/

theorem similar (h : w.Alike w') : w.Similar w' := by
  obtain ⟨fs, hsize, h⟩ := h
  exact ⟨rfl, .refl _, hsize, fun i f g hf hg => (h i f g hf hg).similar⟩

theorem alive_eq (h : w.Alike w') (c : Catalog) (d : DefId) : w'.alive c d = w.alive c d :=
  h.similar.alive_eq c d

/-- Alike worlds answer alike. -/
theorem answer (h : w.Alike w') (c : Catalog) (q : Query) :
    (q.answer c w').1 = (q.answer c w).1 ∧ (q.answer c w).2.Alike (q.answer c w').2 := by
  have halive := h.alive_eq c
  obtain ⟨fs, hsize, h⟩ := h
  cases q with
  | alive d => exact ⟨halive d, .mk fs hsize h⟩
  | item s position =>
    simp only [Query.answer]
    cases w.sequences[s]? with
    | none => exact ⟨rfl, .mk fs hsize h⟩
    | some before => exact ⟨rfl, .mk fs hsize h⟩
  | _ => exact ⟨rfl, .mk fs hsize h⟩

end World.Alike

/-! ## Runs -/

namespace Outcome.Alike

theorem symm {o o' : Outcome α} (h : o.Alike o') : o'.Alike o := by
  cases h with
  | halted h => exact halted h
  | finished r hw => exact finished r hw.symm

theorem trans {o o' o'' : Outcome α} (h : o.Alike o') (h' : o'.Alike o'') : o.Alike o'' := by
  cases h with
  | halted h => exact h'
  | finished r hw =>
    cases h' with
    | finished _ hw' => exact finished r (hw.trans hw')

theorem onward {o o' : Outcome α} {k l : Except Fault α → World → Outcome β} (h : o.Alike o')
    (hk : ∀ r w w', w.Alike w' → (k r w).Alike (l r w')) : (o.onward k).Alike (o'.onward l) := by
  cases h with
  | halted h => exact halted h
  | finished r hw => exact hk r _ _ hw

end Outcome.Alike

/-- Alike programs run alike. -/
theorem Prog.Alike.run {p q : Prog α} (h : p.Alike q) (c : Catalog) (b : Nat) {w w' : World}
    (hw : w.Alike w') : (p.run c b w).Alike (q.run c b w') := by
  induction b using Nat.strongRecOn generalizing α w w' with
  | ind b ihb =>
  induction h generalizing w w' with
  | done r => exact .finished r hw
  | halt h => exact .halted h
  | bounded _ ih => exact ih b hw
  | ask q _ ih =>
    obtain ⟨hanswer, hw'⟩ := hw.answer c q
    rw [run_ask, run_ask, hanswer]
    exact ih _ hw'
  | function holds hcode _ _ ih =>
    have hsize : w'.functions.size = w.functions.size := by
      obtain ⟨fs, hsize, -⟩ := hw
      exact hsize
    rw [run_function, run_function, hsize]
    exact ih _ (hw.push ⟨rfl, hcode⟩)
  | call f arg _ ih =>
    rcases hw.getElem? f with ⟨hf, hg⟩ | ⟨found, found', hf, hg, hfound⟩
    · rw [run_call_none c b w arg _ hf, run_call_none c b w' arg _ hg]
      exact .halted _
    · cases b with
      | zero =>
        rw [run_call_zero c w arg _ hf, run_call_zero c w' arg _ hg]
        exact .halted _
      | succ b =>
        rw [run_call c b w arg _ hf, run_call c b w' arg _ hg, hw.toFrame_eq]
        refine (ihb b (Nat.lt_succ_self b) (hfound.code arg) (hw.entering _)).onward ?_
        exact fun r u u' hu => ih r (hu.leaving _ _)
  | invoke d r args _ ih =>
    cases hd : c.get? d with
    | none =>
      rw [run_invoke_none c b w r args _ hd, run_invoke_none c b w' r args _ hd]
      exact .halted _
    | some definition =>
      cases b with
      | zero =>
        rw [run_invoke_zero c w r args _ hd, run_invoke_zero c w' r args _ hd]
        exact .halted _
      | succ b =>
        rw [run_invoke c b w r args _ hd, run_invoke c b w' r args _ hd, hw.toFrame_eq]
        refine (ihb b (Nat.lt_succ_self b) (refl _) (hw.entering _)).onward ?_
        exact fun r u u' hu => ih r (hu.leaving _ _)
  | within s hp _ ihp ih =>
    rw [run_within, run_within, hw.toFrame_eq]
    exact (ihp (hw.entering s)).onward fun r u u' hu => ih r (hu.leaving s _)
  | symm _ ih => exact (ih hw.symm).symm
  | trans _ _ ih ih' => exact (ih hw).trans (ih' (.refl _))
  | around s r _ ih =>
    rw [run_within, run_done]
    have hleft : (w.entering s).leaving s w.toFrame = w := by cases s <;> rfl
    rw [Outcome.onward_finished, hleft]
    exact ih r hw
  | after s f _ _ ihp ih =>
    rw [run_within, run_within, run_bind, hw.toFrame_eq]
    simp only [run_done, Outcome.onward_bind]
    exact (ihp (hw.entering s)).onward fun r u u' hu => ih _ (hu.leaving s _)

end EffectLayers
