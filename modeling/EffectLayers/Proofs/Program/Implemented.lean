import EffectLayers.Proofs.Program.Growth

/-!
# Programs that do not end for want of an operation

A program is implemented if no run of it ends because an operation has no source. What the layers
make of implemented programs is implemented: they are put together by a few rules. A program is
missing if every run of it ends so.

## Main definitions

* `Arena`: the worlds that programs run in.
* `Prog.Implemented`, `Prog.Missing`: programs that never, and that always, end so.
* `Closure.Implemented`, `Body.Implemented`: callbacks that are implemented.

## Main statements

* `Prog.Implemented.bind`, `Prog.Implemented.inside`: rules for the ways of making programs.
-/

namespace EffectLayers

/-- The worlds that programs run in with a catalog. Which worlds these are does not depend on what
is installed and in use, and scope numbers can be taken in them. -/
structure Arena : Type 1 where
  catalog : Catalog
  admits : World → Prop
  frame : ∀ {w : World} (f : Frame), admits w → admits { w with toFrame := f }
  scope : ∀ {w : World}, admits w → admits { w with nextScope := w.nextScope + 1 }

namespace Arena

/-- All worlds. -/
def everywhere (c : Catalog) : Arena := ⟨c, fun _ => True, fun _ h => h, id⟩

end Arena

/-- The fault of an operation without a source. -/
def Fault.isMissing : Fault → Bool
  | notImplemented .. => true
  | _ => false

namespace Prog

variable {α β : Type} (A : Arena)

/-- From the worlds of the arena the program never ends because an operation has no source, and it
leaves a world of the arena. -/
def Implemented (p : Prog α) : Prop :=
  ∀ b w r w', A.admits w → p.run A.catalog b w = .finished r w' →
    A.admits w' ∧ ∀ e, r = .error e → e.isMissing = false

/-- Every run of the program ends because an operation has no source. -/
def Missing (p : Prog α) : Prop :=
  ∀ c b w, ∃ e w', p.run c b w = .finished (.error e) w' ∧ e.isMissing = true

namespace Implemented

variable {A} {p : Prog α}

theorem pure (a : α) : (Pure.pure a : Prog α).Implemented A := by
  intro b w r w' hw h
  cases h
  exact ⟨hw, nofun⟩

theorem throw {e : Fault} (he : e.isMissing = false) :
    (MonadExcept.throw e : Prog α).Implemented A := by
  intro b w r w' hw h
  cases h
  refine ⟨hw, fun e' h => ?_⟩
  cases h
  exact he

theorem bind {k : α → Prog β} (hp : p.Implemented A) (hk : ∀ a, (k a).Implemented A) :
    (p >>= k).Implemented A := by
  intro b w r w' hw h
  rw [run_bind] at h
  cases hrun : p.run A.catalog b w with
  | halted => rw [hrun] at h; cases h
  | finished s w₁ =>
    rw [hrun] at h
    obtain ⟨hw₁, hs⟩ := hp b w s w₁ hw hrun
    cases s with
    | error e =>
      cases h
      refine ⟨hw₁, fun e' h => ?_⟩
      cases h
      exact hs e rfl
    | ok a => exact hk a b w₁ r w' hw₁ h

theorem inside (s : Scope) (hp : p.Implemented A) : (Prog.inside s p).Implemented A := by
  intro b w r w' hw h
  rw [run_inside] at h
  obtain ⟨r', w₁, hrun, h⟩ := Outcome.onward_eq_finished h
  obtain ⟨hw₁, hr⟩ := hp b _ r' w₁ (A.frame _ hw) hrun
  cases h
  exact ⟨A.frame _ hw₁, hr⟩

theorem holding (h : Holding) (hp : p.Implemented A) : (Prog.holding h p).Implemented A :=
  hp.inside _

theorem keeping (vs : List Value) (hp : p.Implemented A) : (Prog.keeping vs p).Implemented A :=
  hp.holding _

theorem alive (d : DefId) : (query (.alive d)).Implemented A := by
  intro b w r w' hw h
  cases h
  exact ⟨hw, nofun⟩

theorem freshScope : (query .freshScope).Implemented A := by
  intro b w r w' hw h
  cases h
  exact ⟨A.scope hw, nofun⟩

end Implemented

namespace Missing

variable {p : Prog α}

theorem throw {e : Fault} (he : e.isMissing = true) : (MonadExcept.throw e : Prog α).Missing :=
  fun _ _ w => ⟨e, w, rfl, he⟩

theorem bind {k : α → Prog β} (hp : p.Missing) : (p >>= k).Missing := by
  intro c b w
  obtain ⟨e, w', hrun, he⟩ := hp c b w
  refine ⟨e, w', ?_, he⟩
  rw [run_bind, hrun]
  rfl

/-- What answers at once is followed by a program that is missing. -/
theorem after (h : Holding) (a : α) {k : α → Prog β} (hk : (k a).Missing) :
    (Prog.holding h (Pure.pure a) >>= k).Missing := by
  intro c b w
  rw [run_bind, Prog.holding, run_inside]
  exact hk c b _

/-- No program is both. -/
theorem not_implemented {A : Arena} (hp : p.Missing) {w : World} (hw : A.admits w) :
    ¬ p.Implemented A := by
  intro h
  obtain ⟨e, w', hrun, he⟩ := hp A.catalog 0 w
  have hnot := (h 0 w _ w' hw hrun).2 e rfl
  rw [he] at hnot
  cases hnot

end Missing

end Prog

/-! ## Callbacks -/

universe u

/-- The closure is implemented on every argument. -/
def Closure.Implemented {α : Type u} {β : Type} (A : Arena) (f : Closure (α → Prog β)) : Prop :=
  ∀ a, (f.code a).Implemented A

/-- The block body is implemented if the escape is that it is given. -/
def Body.Implemented (A : Arena) (body : Body) : Prop :=
  ∀ escape : Callback, escape.Implemented A → (body.code escape).Implemented A

theorem Closure.Implemented.call {α : Type u} {β : Type} {A : Arena} {f : Closure (α → Prog β)}
    (h : f.Implemented A) (a : α) : (f.call a).Implemented A :=
  (h a).holding f.holds

end EffectLayers
