import EffectLayers.Proofs.Program.Equations

/-!
# Programs that leave the installed definition alone

A scope that installs a definition puts the former one back, whatever happens inside it. A
program that installs nothing outside of such scopes leaves the installed definition as it was,
however it ends, if the code that it calls does so too.

## Main definitions

* `Prog.Steady`: a program installs nothing but in scopes that put it back.
* `Closure.Steady`, `World.Steady`: neither do callbacks, and what can be called in a world.
* `Prog.Restores`: however the program ends, the definition is installed that was before.

## Main statements

* `Prog.Steady.bind`, `Prog.Steady.holding` and the like: one rule for every way of making
  programs.
* `Prog.Steady.run`: a steady program leaves the installed definition as it was.
* `Prog.restores_installed`: a scope that installs a definition puts the former one back.
-/

namespace EffectLayers

/-- Whether the request changes which definition is installed. -/
def Query.installs : Query → Bool
  | install _ => true
  | _ => false

/-- Whether the scope puts back what was installed before it. -/
def Scope.restores : Scope → Bool
  | holding _ => false
  | installed _ => true

/-- The program makes no function value that installs a definition, and does so itself only
inside scopes that put back what was installed before; everywhere if it is `free` to. -/
def Prog.Steady : (free : Bool) → {α : Type} → Prog α → Prop
  | _, _, .done _ => True
  | _, _, .halt _ => True
  | free, _, .bounded next => ∀ n, (next n).Steady free
  | free, _, .ask q next => (q.installs = true → free = true) ∧ ∀ a, (next a).Steady free
  | free, _, .function _ code next => (∀ v, (code v).Steady false) ∧ ∀ id, (next id).Steady free
  | free, _, .call _ _ next => ∀ r, (next r).Steady free
  | free, _, .invoke _ _ _ next => ∀ r, (next r).Steady free
  | free, _, .within s body next =>
    body.Steady (free || s.restores) ∧ ∀ r, (next r).Steady free

/-- A callback that installs nothing outside of scopes that put it back. -/
def Closure.Steady (f : Callback) : Prop := ∀ v, (f.code v).Steady false

/-- No function value that was made installs anything outside of scopes that put it back. -/
def World.Steady (w : World) : Prop :=
  ∀ (i : FuncId) (f : Callback), w.functions[i]? = some f → f.Steady

/-! ## Rules -/

namespace Prog

variable {α β : Type} {free : Bool}

@[simp] theorem steady_pure (a : α) : (pure a : Prog α).Steady free := trivial

@[simp] theorem steady_throw (e : Fault) : (throw e : Prog α).Steady free := trivial

@[simp] theorem steady_halt (h : Halt) : (halt h : Prog α).Steady free := trivial

@[simp] theorem steady_ofOption (a : Option α) : (ofOption a).Steady free := by
  cases a <;> trivial

theorem steady_query {q : Query} (h : q.installs = false) : (query q).Steady free :=
  ⟨fun hq => absurd (h.symm.trans hq) Bool.false_ne_true, fun _ => trivial⟩

@[simp] theorem steady_call (f v : Value) : (f.call v).Steady free := by
  cases f <;> first | trivial | exact fun r => trivial

namespace Steady

theorem mono {p : Prog α} (h : p.Steady false) : p.Steady free := by
  induction p generalizing free with
  | done => trivial
  | halt => trivial
  | bounded next ih => exact fun n => ih n (h n)
  | ask q next ih => exact ⟨fun hq => absurd (h.1 hq) Bool.false_ne_true, fun a => ih a (h.2 a)⟩
  | function g code next _ ih => exact ⟨h.1, fun id => ih id (h.2 id)⟩
  | call f arg next ih => exact fun r => ih r (h r)
  | invoke d request args next ih => exact fun r => ih r (h r)
  | within s body next ih ihNext =>
    refine ⟨?_, fun r => ihNext r (h.2 r)⟩
    cases s with
    | holding g => exact ih h.1
    | installed d => exact (Bool.or_true free).symm ▸ h.1

theorem bind {p : Prog α} {f : α → Prog β} (hp : p.Steady free) (hf : ∀ a, (f a).Steady free) :
    (p >>= f).Steady free := by
  induction p with
  | done r =>
    cases r with
    | ok a => exact hf a
    | error e => trivial
  | halt => trivial
  | bounded next ih => exact fun n => ih n (hp n) hf
  | ask q next ih => exact ⟨hp.1, fun a => ih a (hp.2 a) hf⟩
  | function g code next _ ih => exact ⟨hp.1, fun id => ih id (hp.2 id) hf⟩
  | call g arg next ih => exact fun r => ih r (hp r) hf
  | invoke d request args next ih => exact fun r => ih r (hp r) hf
  | within s body next _ ih => exact ⟨hp.1, fun r => ih r (hp.2 r) hf⟩

theorem outcome {p : Prog α} (hp : p.Steady free) : p.outcome.Steady free := by
  induction p with
  | done => trivial
  | halt => trivial
  | bounded next ih => exact fun n => ih n (hp n)
  | ask q next ih => exact ⟨hp.1, fun a => ih a (hp.2 a)⟩
  | function g code next _ ih => exact ⟨hp.1, fun id => ih id (hp.2 id)⟩
  | call g arg next ih => exact fun r => ih r (hp r)
  | invoke d request args next ih => exact fun r => ih r (hp r)
  | within s body next _ ih => exact ⟨hp.1, fun r => ih r (hp.2 r)⟩

theorem holding (h : Holding) {p : Prog α} (hp : p.Steady free) :
    (Prog.holding h p).Steady free :=
  ⟨(Bool.or_false free).symm ▸ hp, fun _ => trivial⟩

theorem keeping (vs : List Value) {p : Prog α} (hp : p.Steady free) :
    (Prog.keeping vs p).Steady free :=
  hp.holding _

/-- What installs a definition does so inside a scope that puts the former one back. -/
theorem installed (d : DefId) {p : Prog α} (hp : p.Steady true) :
    (Prog.inside (.installed d) p).Steady free :=
  ⟨(Bool.or_true free).symm ▸ hp, fun _ => trivial⟩

end Steady

end Prog

/-! ## Runs -/

namespace World.Steady

variable {w : World}

theorem push (h : w.Steady) {f : Callback} (hf : f.Steady) :
    World.Steady { w with functions := w.functions.push f } := by
  intro i g hg
  rcases Array.getElem?_push .. ▸ hg with hg
  split at hg
  · exact Option.some.inj hg ▸ hf
  · exact h i g hg

theorem entering (h : w.Steady) (s : Scope) : (w.entering s).Steady := h

theorem leaving (h : w.Steady) (s : Scope) (before : Frame) : (w.leaving s before).Steady := h

theorem answer (h : w.Steady) (c : Catalog) (q : Query) : (q.answer c w).2.Steady := by
  cases q with
  | item s position =>
    simp only [Query.answer]
    split <;> exact h
  | _ => exact h

end World.Steady

/-- Only installing a definition changes which one is installed. -/
theorem Query.ambient_answer (c : Catalog) (w : World) {q : Query} (h : q.installs = false) :
    (q.answer c w).2.ambient = w.ambient := by
  cases q with
  | install d => cases h
  | item s position =>
    simp only [answer]
    split <;> rfl
  | _ => rfl

namespace Prog

variable {c : Catalog} {b rounds : Nat} {nested : Prog Value → World → Outcome Value} {α : Type}
  {free : Bool}

/-- The code that can be called from a world leaves the installed definition as it was, and
makes only such code. -/
def Settled (run : Prog Value → World → Outcome Value) : Prop :=
  ∀ p w r w', p.Steady false → w.Steady → run p w = .finished r w' →
    w'.Steady ∧ w'.ambient = w.ambient

theorem Steady.runWith
    (hc : ∀ i d, c.get? i = some d → ∀ r args, (d.table.answer r args).Steady false)
    (hnested : Settled nested) {p : Prog α} (hp : p.Steady free) {w w' : World} (hw : w.Steady)
    {r : Except Fault α} (h : p.runWith c rounds nested w = .finished r w') :
    w'.Steady ∧ (free = false → w'.ambient = w.ambient) := by
  induction p generalizing free w w' with
  | done =>
    cases h
    exact ⟨hw, fun _ => rfl⟩
  | halt => cases h
  | bounded next ih => exact ih rounds (hp rounds) hw h
  | ask q next ih =>
    obtain ⟨hsteady, hambient⟩ := ih _ (hp.2 _) (hw.answer c q) h
    refine ⟨hsteady, fun hfree => (hambient hfree).trans (Query.ambient_answer c w ?_)⟩
    cases hq : q.installs with
    | false => rfl
    | true => exact absurd (hfree.symm.trans (hp.1 hq)) Bool.false_ne_true
  | function g code next _ ih =>
    have hpush := hw.push (f := ⟨code, g⟩) hp.1
    obtain ⟨hw', hambient⟩ := ih _ (hp.2 _) hpush h
    exact ⟨hw', hambient⟩
  | call f arg next ih =>
    obtain ⟨found, r', w₁, hf, hcode, hnext⟩ := runWith_call_eq_finished h
    obtain ⟨hw₁, hambient₁⟩ := hnested _ _ _ _ (hw f found hf arg) (hw.entering _) hcode
    obtain ⟨hw', hambient⟩ := ih r' (hp r') (hw₁.leaving _ _) hnext
    exact ⟨hw', fun hfree => (hambient hfree).trans hambient₁⟩
  | invoke d request args next ih =>
    obtain ⟨definition, r', w₁, hd, hanswer, hnext⟩ := runWith_invoke_eq_finished h
    obtain ⟨hw₁, hambient₁⟩ :=
      hnested _ _ _ _ (hc d definition hd request args) (hw.entering _) hanswer
    obtain ⟨hw', hambient⟩ := ih r' (hp r') (hw₁.leaving _ _) hnext
    exact ⟨hw', fun hfree => (hambient hfree).trans hambient₁⟩
  | within s body next ih ihNext =>
    rw [runWith_within] at h
    obtain ⟨r', w₁, hcode, hnext⟩ := Outcome.onward_eq_finished h
    obtain ⟨hw₁, hambient₁⟩ := ih hp.1 (hw.entering s) hcode
    obtain ⟨hw', hambient⟩ := ihNext r' (hp.2 r') (hw₁.leaving _ _) hnext
    refine ⟨hw', fun hfree => (hambient hfree).trans ?_⟩
    cases s with
    | holding g => exact hambient₁ (by simp [hfree, Scope.restores])
    | installed d => rfl

theorem settled_nested
    (hc : ∀ i d, c.get? i = some d → ∀ r args, (d.table.answer r args).Steady false) (b : Nat) :
    Settled (Prog.nested c b) := by
  induction b with
  | zero => exact fun p w r w' _ _ h => nomatch h
  | succ b ih =>
    intro p w r w' hp hw h
    rw [nested_succ] at h
    obtain ⟨hw', hambient⟩ := hp.runWith hc ih hw h
    exact ⟨hw', hambient rfl⟩

/-- A steady program leaves steady function values and, unless it is free to install another
one, the installed definition as it was. -/
theorem Steady.run
    (hc : ∀ i d, c.get? i = some d → ∀ r args, (d.table.answer r args).Steady false)
    {p : Prog α} (hp : p.Steady free) {w w' : World} (hw : w.Steady) {r : Except Fault α}
    (h : p.run c b w = .finished r w') : w'.Steady ∧ (free = false → w'.ambient = w.ambient) :=
  hp.runWith hc (settled_nested hc b) hw h

/-- However the program ends, the definition is installed that was before. -/
def Restores (p : Prog α) : Prop :=
  ∀ (c : Catalog) (b : Nat) (w w' : World) (r : Except Fault α),
    p.run c b w = .finished r w' → w'.ambient = w.ambient

theorem restores_done (r : Except Fault α) : (done r).Restores := by
  intro c b w w' r' h
  cases h
  rfl

theorem restores_halt (h : Halt) : (halt h : Prog α).Restores := by
  intro c b w w' r' h
  cases h

theorem restores_query {q : Query} (h : q.installs = false) : (query q).Restores := by
  intro c b w w' r hrun
  cases hrun
  exact Query.ambient_answer c w h

theorem Restores.bind {β : Type} {p : Prog α} {f : α → Prog β} (hp : p.Restores)
    (hf : ∀ a, (f a).Restores) : (p >>= f).Restores := by
  intro c b w w' r h
  rw [run_bind] at h
  rcases hrun : p.run c b w with halt | ⟨e | a, w₁⟩
  · rw [hrun] at h
    cases h
  · rw [hrun] at h
    cases h
    exact hp c b w w' _ hrun
  · rw [hrun] at h
    exact (hf a c b w₁ w' r h).trans (hp c b w w₁ _ hrun)

/-- A scope that installs a definition puts the former one back, whatever happens inside it. -/
theorem restores_installed (d : DefId) (p : Prog α) : (inside (.installed d) p).Restores := by
  intro c b w w' r h
  rw [run_inside] at h
  obtain ⟨r', w₁, -, h⟩ := Outcome.onward_eq_finished h
  cases h
  rfl

end Prog

end EffectLayers
