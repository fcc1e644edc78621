import EffectLayers.Proofs.Program.Equations

/-!
# Programs that hold similar values

What a program holds matters only for what is alive, which depends on the function values and
sequences that the values refer to. Programs that differ in such similar holdings, and in where
results that are at hand already are computed, cannot be told apart by a run.

## Main definitions

* `Holding.Similar`, `Scope.Similar`: the same is referred to.
* `Prog.Similar`: the least congruence that exchanges similar holdings, by which a scope around a
  result is left at once, and what is computed from the result of a scope is computed in it or
  after it.
* `Closure.Similar`, `World.Similar`, `Outcome.Similar`: what is made of similar programs.

## Main statements

* `World.Similar.alive_eq`: the same is alive in similar worlds.
* `Prog.Similar.bind`: sequences of similar programs are similar.
* `Prog.Similar.run`: similar programs run similarly.
-/

namespace EffectLayers

variable {α β γ : Type}

/-- The same definitions are held, and values that refer to the same. -/
structure Holding.Similar (g h : Holding) : Prop where
  values : Value.referencesAll g.values = Value.referencesAll h.values
  definitions : g.definitions = h.definitions

/-- Scopes that install the same, or hold similar things. -/
inductive Scope.Similar : Scope → Scope → Prop where
  | holding {g h : Holding} (hgh : g.Similar h) : Similar (.holding g) (.holding h)
  | installed (d : DefId) : Similar (.installed d) (.installed d)

/-- Programs that differ only in what they hold, which is similar, and in where results that are at
hand already are computed. -/
inductive Prog.Similar : {α : Type} → Prog α → Prog α → Prop where
  | done {α : Type} (r : Except Fault α) : Similar (.done r) (.done r)
  | halt {α : Type} (h : Halt) : Similar (.halt h : Prog α) (.halt h)
  | bounded {α : Type} {f g : Nat → Prog α} (h : ∀ n, Similar (f n) (g n)) :
      Similar (.bounded f) (.bounded g)
  | ask {α : Type} (q : Query) {f g : q.Answer → Prog α} (h : ∀ a, Similar (f a) (g a)) :
      Similar (.ask q f) (.ask q g)
  | function {α : Type} {holds holds' : Holding} {code code' : Value → Prog Value}
      {f g : FuncId → Prog α} (hholds : holds.Similar holds')
      (hcode : ∀ v, Similar (code v) (code' v)) (h : ∀ id, Similar (f id) (g id)) :
      Similar (.function holds code f) (.function holds' code' g)
  | call {α : Type} (f : FuncId) (arg : Value) {k l : Except Fault Value → Prog α}
      (h : ∀ r, Similar (k r) (l r)) : Similar (.call f arg k) (.call f arg l)
  | invoke {α : Type} (d : DefId) (r : Request) (args : List Value)
      {k l : Except Fault Value → Prog α} (h : ∀ r, Similar (k r) (l r)) :
      Similar (.invoke d r args k) (.invoke d r args l)
  | within {α β : Type} {s s' : Scope} {p q : Prog β} {k l : Except Fault β → Prog α}
      (hs : s.Similar s') (hp : Similar p q) (h : ∀ r, Similar (k r) (l r)) :
      Similar (.within s p k) (.within s' q l)
  | symm {α : Type} {p q : Prog α} (h : Similar p q) : Similar q p
  | trans {α : Type} {p q r : Prog α} (h : Similar p q) (h' : Similar q r) : Similar p r
  /-- A scope around a result is left at once. -/
  | around {α β : Type} (s : Scope) (r : Except Fault β) {k l : Except Fault β → Prog α}
      (h : ∀ r, Similar (k r) (l r)) : Similar (.within s (.done r) k) (l r)
  /-- What is computed from the result of a scope is computed in it or after it. -/
  | after {α β γ : Type} (s : Scope) {p q : Prog β} (f : β → Except Fault γ)
      {k l : Except Fault γ → Prog α} (hp : Similar p q) (h : ∀ r, Similar (k r) (l r)) :
      Similar (.within s (p >>= fun a => .done (f a)) k) (.within s q fun r => l (r >>= f))

theorem Value.referencesAll_append (us vs : List Value) :
    referencesAll (us ++ vs) = referencesAll us ++ referencesAll vs := by
  induction us with
  | nil => rfl
  | cons u us ih => simp only [List.cons_append, referencesAll, ih, List.append_assoc]

/-! ## Holdings -/

namespace Holding.Similar

variable {g h k g' h' : Holding}

theorem refl (h : Holding) : h.Similar h := ⟨rfl, rfl⟩

theorem symm (hgh : g.Similar h) : h.Similar g := ⟨hgh.values.symm, hgh.definitions.symm⟩

theorem trans (hgh : g.Similar h) (hhk : h.Similar k) : g.Similar k :=
  ⟨hgh.values.trans hhk.values, hgh.definitions.trans hhk.definitions⟩

theorem append (hgh : g.Similar h) (hgh' : g'.Similar h') : (g ++ g').Similar (h ++ h') := by
  constructor
  · simp only [values_append, Value.referencesAll_append, hgh.values, hgh'.values]
  · simp only [definitions_append, hgh.definitions, hgh'.definitions]

end Holding.Similar

theorem Scope.Similar.refl (s : Scope) : s.Similar s := by
  cases s with
  | holding h => exact holding (.refl h)
  | installed d => exact installed d

/-! ## Programs -/

namespace Prog.Similar

theorem refl (p : Prog α) : p.Similar p := by
  induction p with
  | done r => exact done r
  | halt h => exact halt h
  | bounded _ ih => exact bounded ih
  | ask q _ ih => exact ask q ih
  | function h _ _ ihcode ih => exact function (.refl h) ihcode ih
  | call f arg _ ih => exact call f arg ih
  | invoke d r args _ ih => exact invoke d r args ih
  | within s _ _ ih ihnext => exact within (.refl s) ih ihnext

theorem of_eq {p q : Prog α} (h : p = q) : p.Similar q := h ▸ refl p

theorem bind_left {p q : Prog α} (h : p.Similar q) (f : α → Prog β) :
    (p >>= f).Similar (q >>= f) := by
  induction h with
  | done r => exact refl _
  | halt h => exact halt h
  | bounded _ ih => exact bounded fun n => ih n f
  | ask q _ ih => exact ask q fun a => ih a f
  | function hholds hcode _ _ ih => exact function hholds hcode fun id => ih id f
  | call id arg _ ih => exact call id arg fun r => ih r f
  | invoke d r args _ ih => exact invoke d r args fun r => ih r f
  | within hs hp _ _ ih => exact within hs hp fun r => ih r f
  | symm _ ih => exact (ih f).symm
  | trans _ _ ih ih' => exact (ih f).trans (ih' f)
  | around s r _ ih => exact around s r fun r => ih r f
  | after s g hp _ _ ih => exact after s g hp fun r => ih r f

theorem bind_right (p : Prog α) {f g : α → Prog β} (hf : ∀ a, (f a).Similar (g a)) :
    (p >>= f).Similar (p >>= g) := by
  induction p with
  | done r =>
    cases r with
    | ok a => exact hf a
    | error e => exact done (.error e)
  | halt h => exact halt h
  | bounded _ ih => exact bounded fun n => ih n hf
  | ask q _ ih => exact ask q fun a => ih a hf
  | function h code _ _ ih => exact function (.refl h) (fun v => refl (code v)) fun id => ih id hf
  | call id arg _ ih => exact call id arg fun r => ih r hf
  | invoke d r args _ ih => exact invoke d r args fun r => ih r hf
  | within s p _ _ ih => exact within (.refl s) (refl p) fun r => ih r hf

/-- Sequences of similar programs are similar. -/
theorem bind {p q : Prog α} {f g : α → Prog β} (h : p.Similar q)
    (hf : ∀ a, (f a).Similar (g a)) : (p >>= f).Similar (q >>= g) :=
  (h.bind_left f).trans (bind_right q hf)

theorem inside (s : Scope) {p q : Prog α} (h : p.Similar q) :
    (Prog.inside s p).Similar (Prog.inside s q) :=
  within (.refl s) h done

theorem holding {g h : Holding} (hgh : g.Similar h) {p q : Prog α} (hp : p.Similar q) :
    (Prog.holding g p).Similar (Prog.holding h q) :=
  within (.holding hgh) hp done

/-- What is computed from the result of a scope is computed in it or after it. -/
theorem inside_bind (s : Scope) (p : Prog α) (f : α → Except Fault β) :
    (Prog.inside s (p >>= fun a => .done (f a))).Similar
      (Prog.inside s p >>= fun a => .done (f a)) := by
  refine (after s f (refl p) .done).trans (within (.refl s) (refl p) fun r => ?_)
  cases r with
  | ok a => exact done (f a)
  | error e => exact done (.error e)

theorem holding_map {g h : Holding} (hgh : g.Similar h) {p : Prog β} {q : Prog α} {f : α → β}
    (hp : p.Similar (do return f (← q))) :
    (Prog.holding g p).Similar (do return f (← Prog.holding h q)) :=
  (hp.holding hgh).trans (inside_bind _ q fun a => .ok (f a))

end Prog.Similar

/-! ## Worlds -/

/-- Closures of one value that hold similar things and whose code is similar. -/
structure Closure.Similar {β : Type} (f g : Closure (Value → Prog β)) : Prop where
  holds : f.holds.Similar g.holds
  code : ∀ v, (f.code v).Similar (g.code v)

namespace Closure.Similar

variable {f g k : Closure (Value → Prog β)}

theorem refl (f : Closure (Value → Prog β)) : f.Similar f := ⟨.refl _, fun _ => .refl _⟩

theorem symm (h : f.Similar g) : g.Similar f := ⟨h.holds.symm, fun v => (h.code v).symm⟩

theorem trans (h : f.Similar g) (h' : g.Similar k) : f.Similar k :=
  ⟨h.holds.trans h'.holds, fun v => (h.code v).trans (h'.code v)⟩

theorem call (h : f.Similar g) (v : Value) : (f.call v).Similar (g.call v) :=
  (h.code v).holding h.holds

theorem reify {f g : Callback} (h : f.Similar g) : f.reify.Similar g.reify :=
  .function h.holds h.code fun _ => .refl _

end Closure.Similar

/-! ## What is alive -/

namespace World

variable {w w' : World}

theorem reach_congr (h : w'.referencesOf = w.referencesOf) (n : Nat) (reached : References)
    (pending : List Reference) : w'.reach n reached pending = w.reach n reached pending := by
  induction n generalizing reached pending with
  | zero => rfl
  | succ n ih => simp only [reach, h, ih]

/-- What is alive depends on what is in use, what is logged and what function values and sequences
hold. -/
theorem alive_congr (hroots : w'.roots = w.roots)
    (hpending : Value.referencesAll (w'.held.flatMap (·.values) ++ w'.log.toList) =
      Value.referencesAll (w.held.flatMap (·.values) ++ w.log.toList))
    (hsequences : w'.sequences = w.sequences) (hreferences : w'.referencesOf = w.referencesOf)
    (hdefinitions : w'.functions.toList.map (·.holds.definitions) =
      w.functions.toList.map (·.holds.definitions)) (c : Catalog) (d : DefId) :
    w'.alive c d = w.alive c d := by
  have hsize : w'.functions.size = w.functions.size := by
    simpa using congrArg List.length hdefinitions
  have hreachable : w'.reachable = w.reachable := by
    simp only [reachable, reach_congr hreferences, hpending, hsize, hsequences]
  have hzip (gs : List Callback) (rs : List Bool) :
      ((gs.zip rs).flatMap fun p => if p.2 then p.1.holds.definitions else []) =
        ((gs.map (·.holds.definitions)).zip rs).flatMap fun p => if p.2 then p.1 else [] := by
    simp [List.zip_map_left, List.flatMap_map]
  have hretained (w : World) : w.retained =
      (w.functions.toList.zip w.reachable.functions.toList).flatMap fun p =>
        if p.2 then p.1.holds.definitions else [] := rfl
  simp only [alive, anyRoot_eq_any, hroots, hretained, hreachable, hzip, hdefinitions]

end World

/-! ## Similar worlds -/

/-- All that is in use. -/
def Frame.inUse (f : Frame) : Holding :=
  ⟨f.held.flatMap (·.values), f.held.flatMap (·.definitions)⟩

/-- Worlds that differ in what is in use, which is similar, and in function values, which are
similar. -/
structure World.Similar (w w' : World) : Prop where
  eq : w' = { w with held := w'.held, functions := w'.functions }
  inUse : w.inUse.Similar w'.inUse
  size : w'.functions.size = w.functions.size
  functions : ∀ (i : FuncId) f g, w.functions[i]? = some f → w'.functions[i]? = some g →
    Closure.Similar f g

/-- Outcomes that are the same, but for worlds that are similar. -/
inductive Outcome.Similar : Outcome α → Outcome α → Prop where
  | halted (h : Halt) : Similar (.halted h) (.halted h)
  | finished (r : Except Fault α) {w w' : World} (hw : w.Similar w') :
      Similar (.finished r w) (.finished r w')

namespace World.Similar

variable {w w' w'' : World}

theorem refl (w : World) : w.Similar w where
  eq := rfl
  inUse := .refl _
  size := rfl
  functions _ f _ hf hg := Option.some.inj (hf.symm.trans hg) ▸ .refl f

theorem symm (h : w.Similar w') : w'.Similar w where
  eq := by rw [h.eq]
  inUse := h.inUse.symm
  size := h.size.symm
  functions i f g hf hg := (h.functions i g f hg hf).symm

/-- Which function value is found is similar. -/
theorem getElem? (h : w.Similar w') (i : FuncId) :
    (w.functions[i]? = none ∧ w'.functions[i]? = none) ∨
      ∃ f g, w.functions[i]? = some f ∧ w'.functions[i]? = some g ∧ f.Similar g := by
  cases hf : w.functions[i]? with
  | none =>
    have hi : w.functions.size ≤ i := Array.getElem?_eq_none_iff.mp hf
    exact .inl ⟨rfl, Array.getElem?_eq_none (h.size ▸ hi)⟩
  | some f =>
    obtain ⟨hi, -⟩ := Array.getElem?_eq_some_iff.mp hf
    have hg := Array.getElem?_eq_getElem (h.size.symm ▸ hi : i < w'.functions.size)
    exact .inr ⟨f, _, rfl, hg, h.functions i f _ hf hg⟩

theorem trans (h : w.Similar w') (h' : w'.Similar w'') : w.Similar w'' where
  eq := by rw [h'.eq, h.eq]
  inUse := h.inUse.trans h'.inUse
  size := h'.size.trans h.size
  functions i f g hf hg := by
    rcases h.getElem? i with ⟨hnone, -⟩ | ⟨f', k, hf', hk, hfk⟩
    · rw [hnone] at hf
      cases hf
    · obtain rfl := Option.some.inj (hf.symm.trans hf')
      exact hfk.trans (h'.functions i k g hk hg)

/-- Function values that are made next are similar if their code and what they hold is. -/
theorem push (h : w.Similar w') {f g : Callback} (hfg : f.Similar g) :
    World.Similar { w with functions := w.functions.push f }
      { w' with functions := w'.functions.push g } where
  eq := by rw [h.eq]
  inUse := h.inUse
  size := by simp [h.size]
  functions i f' g' hf' hg' := by
    simp only [Array.getElem?_push, h.size] at hf' hg'
    by_cases hi : i = w.functions.size
    · rw [if_pos hi] at hf' hg'
      exact Option.some.inj hf' ▸ Option.some.inj hg' ▸ hfg
    · rw [if_neg hi] at hf' hg'
      exact h.functions i f' g' hf' hg'

theorem entering (h : w.Similar w') {s s' : Scope} (hs : s.Similar s') :
    (w.entering s).Similar (w'.entering s') where
  eq := by
    rw [h.eq]
    cases hs <;> rfl
  inUse := by
    cases hs with
    | holding hgh => exact hgh.append h.inUse
    | installed d => exact (Holding.Similar.refl { definitions := [d] }).append h.inUse
  size := h.size
  functions := h.functions

/-- A scope is left for what was in use before it. -/
theorem leaving {u u' : World} (hu : u.Similar u') {s s' : Scope} (hs : s.Similar s')
    (h : w.Similar w') : (u.leaving s w.toFrame).Similar (u'.leaving s' w'.toFrame) where
  eq := by
    rw [hu.eq, h.eq]
    cases hs <;> rfl
  inUse := by cases hs <;> exact h.inUse
  size := hu.size
  functions := hu.functions

/-! ### What is alive -/

theorem referencesOf_eq (h : w.Similar w') : w'.referencesOf = w.referencesOf := by
  funext r
  cases r with
  | sequence s =>
    rw [h.eq]
    rfl
  | function f =>
    rcases h.getElem? f with ⟨hf, hg⟩ | ⟨found, found', hf, hg, hfound⟩
    · simp only [referencesOf, hf, hg]
    · simp only [referencesOf, hf, hg, Option.map_some, hfound.holds.values]

/-- What a world knows of the definitions that its function values hold. -/
theorem map_definitions (h : w.Similar w') :
    w'.functions.toList.map (·.holds.definitions) =
      w.functions.toList.map (·.holds.definitions) := by
  refine List.ext_getElem? fun i => ?_
  simp only [List.getElem?_map, Array.getElem?_toList]
  rcases h.getElem? i with ⟨hf, hg⟩ | ⟨found, found', hf, hg, hfound⟩
  · rw [hf, hg]
  · rw [hf, hg, Option.map_some, Option.map_some, hfound.holds.definitions]

/-- The same is alive in similar worlds. -/
theorem alive_eq (h : w.Similar w') (c : Catalog) (d : DefId) : w'.alive c d = w.alive c d := by
  have hsequences : w'.sequences = w.sequences := by rw [h.eq]
  refine alive_congr ?_ ?_ hsequences h.referencesOf_eq h.map_definitions c d
  · have hdefinitions : w.held.flatMap (·.definitions) = w'.held.flatMap (·.definitions) :=
      h.inUse.definitions
    rw [h.eq]
    simp only [roots, hdefinitions]
  · rw [Value.referencesAll_append, Value.referencesAll_append, h.eq]
    exact congrArg (· ++ _) h.inUse.values.symm

/-- Similar worlds answer alike. -/
theorem answer (h : w.Similar w') (c : Catalog) (q : Query) :
    (q.answer c w').1 = (q.answer c w).1 ∧ (q.answer c w).2.Similar (q.answer c w').2 := by
  have halive := h.alive_eq c
  obtain ⟨heq, hinUse, hsize, hfunctions⟩ := h
  generalize w'.held = held at heq
  generalize w'.functions = fs at heq
  subst heq
  cases q with
  | alive d => exact ⟨halive d, rfl, hinUse, hsize, hfunctions⟩
  | item s position =>
    simp only [Query.answer]
    cases w.sequences[s]? <;> exact ⟨rfl, rfl, hinUse, hsize, hfunctions⟩
  | _ => exact ⟨rfl, rfl, hinUse, hsize, hfunctions⟩

end World.Similar

/-! ## Runs -/

namespace Outcome.Similar

theorem symm {o o' : Outcome α} (h : o.Similar o') : o'.Similar o := by
  cases h with
  | halted h => exact halted h
  | finished r hw => exact finished r hw.symm

theorem trans {o o' o'' : Outcome α} (h : o.Similar o') (h' : o'.Similar o'') : o.Similar o'' := by
  cases h with
  | halted h => exact h'
  | finished r hw =>
    cases h' with
    | finished _ hw' => exact finished r (hw.trans hw')

theorem onward {o o' : Outcome α} {k l : Except Fault α → World → Outcome β} (h : o.Similar o')
    (hk : ∀ r w w', w.Similar w' → (k r w).Similar (l r w')) :
    (o.onward k).Similar (o'.onward l) := by
  cases h with
  | halted h => exact halted h
  | finished r hw => exact hk r _ _ hw

end Outcome.Similar

/-- Similar programs run similarly. -/
theorem Prog.Similar.run {p q : Prog α} (h : p.Similar q) (c : Catalog) (b : Nat) {w w' : World}
    (hw : w.Similar w') : (p.run c b w).Similar (q.run c b w') := by
  induction b using Nat.strongRecOn generalizing α w w' with
  | ind b ihb =>
  induction h generalizing w w' with
  | done r => exact .finished r hw
  | halt h => exact .halted h
  | bounded _ ih => exact ih b hw
  | ask q _ ih =>
    obtain ⟨hanswer, hw'⟩ := hw.answer c q
    rw [run_ask, run_ask, hanswer]
    exact ih _ hw'
  | function hholds hcode _ _ ih =>
    rw [run_function, run_function, hw.size]
    exact ih _ (hw.push ⟨hholds, hcode⟩)
  | call f arg _ ih =>
    rcases hw.getElem? f with ⟨hf, hg⟩ | ⟨found, found', hf, hg, hfound⟩
    · rw [run_call_none c b w arg _ hf, run_call_none c b w' arg _ hg]
      exact .halted _
    · cases b with
      | zero =>
        rw [run_call_zero c w arg _ hf, run_call_zero c w' arg _ hg]
        exact .halted _
      | succ b =>
        rw [run_call c b w arg _ hf, run_call c b w' arg _ hg]
        refine (ihb b (Nat.lt_succ_self b) (hfound.code arg) (hw.entering (.refl _))).onward ?_
        exact fun r u u' hu => ih r (hu.leaving (.refl _) hw)
  | invoke d r args _ ih =>
    cases hd : c.get? d with
    | none =>
      rw [run_invoke_none c b w r args _ hd, run_invoke_none c b w' r args _ hd]
      exact .halted _
    | some definition =>
      cases b with
      | zero =>
        rw [run_invoke_zero c w r args _ hd, run_invoke_zero c w' r args _ hd]
        exact .halted _
      | succ b =>
        rw [run_invoke c b w r args _ hd, run_invoke c b w' r args _ hd]
        refine (ihb b (Nat.lt_succ_self b) (refl _) (hw.entering (.refl _))).onward ?_
        exact fun r u u' hu => ih r (hu.leaving (.refl _) hw)
  | within hs hp _ ihp ih =>
    rw [run_within, run_within]
    exact (ihp (hw.entering hs)).onward fun r u u' hu => ih r (hu.leaving hs hw)
  | symm _ ih => exact (ih hw.symm).symm
  | trans _ _ ih ih' => exact (ih hw).trans (ih' (.refl _))
  | around s r _ ih =>
    rw [run_within, run_done]
    have hleft : (w.entering s).leaving s w.toFrame = w := by cases s <;> rfl
    rw [Outcome.onward_finished, hleft]
    exact ih r hw
  | after s f _ _ ihp ih =>
    rw [run_within, run_within, run_bind]
    simp only [run_done, Outcome.onward_bind]
    exact (ihp (hw.entering (.refl s))).onward fun r u u' hu => ih _ (hu.leaving (.refl s) hw)

end EffectLayers
