import EffectLayers.Proofs.Program.Events

/-!
# What a run keeps of the world, and what it adds

What every request keeps, a whole run keeps. Function values and scope numbers are only added. A
scope number is handed out once: whatever a program does, and however its calls nest and repeat,
no two invocations of `block` in a run have the same.

## Main definitions

* `World.Kept`: what holds of the world before and after every request.
* `World.Grows`: a world knows what an earlier one knew.
* `Prog.tags`: the scope numbers that a run hands out, in order.

## Main statements

* `Prog.run_related`: what every request keeps, every run keeps.
* `Prog.held_of_run`: what was in use is in use afterwards, and nothing else.
* `Prog.run_grows`: the world after a run knows what the one before it knew.
* `Prog.numbers_tags`: the scope numbers of a run follow on one another.
* `Prog.nodup_tags`: they are pairwise distinct.
-/

namespace EffectLayers

/-! ## What every run keeps -/

/-- What holds of the world before and after every request, holds before and after every run. -/
structure World.Kept (c : Catalog) (R : World → World → Prop) : Prop where
  refl : ∀ w, R w w
  trans : ∀ {u v w}, R u v → R v w → R u w
  answer : ∀ w q, R w (Query.answer c w q).2
  push : ∀ w f, R w { w with functions := w.functions.push f }
  within : ∀ w w' s, R (w.entering s) w' → R w (w'.leaving s w.toFrame)

namespace Prog

variable {c : Catalog} {b rounds : Nat} {nested : Prog Value → World → Outcome Value} {α : Type}
  {R : World → World → Prop}

theorem runWith_related (hR : World.Kept c R)
    (hnested : ∀ p w r w', nested p w = .finished r w' → R w w') (p : Prog α) {w w' : World}
    {r : Except Fault α} (h : p.runWith c rounds nested w = .finished r w') : R w w' := by
  induction p generalizing w w' with
  | done =>
    cases h
    exact hR.refl w
  | halt => cases h
  | bounded next ih => exact ih rounds h
  | ask q next ih => exact hR.trans (hR.answer w q) (ih _ h)
  | function g code next _ ih => exact hR.trans (hR.push w _) (ih _ h)
  | call f arg next ih =>
    obtain ⟨found, r', w₁, -, hcode, hnext⟩ := runWith_call_eq_finished h
    exact hR.trans (hR.within w w₁ _ (hnested _ _ _ _ hcode)) (ih r' hnext)
  | invoke d request args next ih =>
    obtain ⟨definition, r', w₁, -, hanswer, hnext⟩ := runWith_invoke_eq_finished h
    exact hR.trans (hR.within w w₁ _ (hnested _ _ _ _ hanswer)) (ih r' hnext)
  | within s body next ih ihNext =>
    rw [runWith_within] at h
    obtain ⟨r', w₁, hcode, hnext⟩ := Outcome.onward_eq_finished h
    exact hR.trans (hR.within w w₁ s (ih hcode)) (ihNext r' hnext)

/-- What every request keeps, every run keeps. -/
theorem run_related (hR : World.Kept c R) (p : Prog α) {w w' : World} {r : Except Fault α}
    (h : p.run c b w = .finished r w') : R w w' := by
  have hnested (b : Nat) (p : Prog Value) (w : World) (r : Except Fault Value) (w' : World)
      (h : nested c b p w = .finished r w') : R w w' := by
    induction b generalizing p w r w' with
    | zero => cases h
    | succ b ih =>
      rw [nested_succ] at h
      exact runWith_related hR ih p h
  exact runWith_related hR (hnested b) p h

/-- Every run leaves in use what was in use before it, and nothing else. -/
theorem held_of_run (p : Prog α) {w w' : World} {r : Except Fault α}
    (h : p.run c b w = .finished r w') : w'.held = w.held ∧ w'.saved = w.saved := by
  refine run_related (R := fun w w' => w'.held = w.held ∧ w'.saved = w.saved) ?_ p h
  constructor
  case refl => exact fun w => ⟨rfl, rfl⟩
  case trans => exact fun h h' => ⟨h'.1.trans h.1, h'.2.trans h.2⟩
  case answer =>
    intro w q
    cases q with
    | item s position =>
      simp only [Query.answer]
      split <;> exact ⟨rfl, rfl⟩
    | _ => exact ⟨rfl, rfl⟩
  case push => exact fun w f => ⟨rfl, rfl⟩
  case within =>
    intro w w' s h
    cases s <;> exact ⟨rfl, rfl⟩

end Prog

/-! ## Growth -/

/-- The function values of `w` are those of `w'`, and its scope numbers are taken there. -/
structure World.Grows (w w' : World) : Prop where
  functions : ∀ (i : FuncId) (f : Callback), w.functions[i]? = some f → w'.functions[i]? = some f
  scopes : w.nextScope ≤ w'.nextScope

namespace World.Grows

theorem refl (w : World) : w.Grows w := ⟨fun _ _ h => h, Nat.le_refl _⟩

theorem trans {u v w : World} (h : u.Grows v) (g : v.Grows w) : u.Grows w := by
  obtain ⟨hfunctions, hscopes⟩ := h
  obtain ⟨gfunctions, gscopes⟩ := g
  constructor
  case functions =>
    intro i f hf
    exact gfunctions i f (hfunctions i f hf)
  case scopes => grind

theorem entering {w w' : World} (h : w.Grows w') (s : Scope) : w.Grows (w'.entering s) :=
  ⟨h.functions, h.scopes⟩

theorem leaving {w w' : World} (h : w.Grows w') (s : Scope) (before : Frame) :
    w.Grows (w'.leaving s before) :=
  ⟨h.functions, h.scopes⟩

theorem push (w : World) (f : Callback) :
    w.Grows { w with functions := w.functions.push f } := by
  constructor
  case functions =>
    -- What is found has an index before the one of the new function value.
    intro i g h
    grind
  case scopes => simp

theorem answer (c : Catalog) (w : World) (q : Query) : w.Grows (q.answer c w).2 := by
  cases q with
  | freshScope => exact ⟨fun _ _ h => h, Nat.le_succ _⟩
  | item s position =>
    simp only [Query.answer]
    split <;> exact ⟨fun _ _ h => h, Nat.le_refl _⟩
  | _ => exact ⟨fun _ _ h => h, Nat.le_refl _⟩

/-- Every request adds to the world only, and so does everything that programs do. -/
theorem kept (c : Catalog) : World.Kept c World.Grows where
  refl := refl
  trans := trans
  answer := answer c
  push := push
  within _ _ s h := ((refl _).entering s).trans (h.leaving s _)

end World.Grows

namespace Prog

variable {c : Catalog} {b rounds : Nat} {nested : Prog Value → World → Outcome Value} {α : Type}

/-- The world after a run knows what the one before it knew. -/
theorem run_grows (p : Prog α) {w w' : World} {r : Except Fault α}
    (h : p.run c b w = .finished r w') : w.Grows w' :=
  run_related (World.Grows.kept c) p h

end Prog

/-! ## Scope numbers -/

/-- The scope numbers that a request hands out. -/
def Query.tags (w : World) : Query → List ScopeId
  | freshScope => [w.nextScope]
  | _ => []

theorem Query.nextScope_answer (c : Catalog) (w : World) (q : Query) :
    (q.answer c w).2.nextScope = w.nextScope + (q.tags w).length := by
  cases q with
  | item s position =>
    simp only [answer, tags]
    split <;> rfl
  | _ => rfl

def Event.tags : Event → List ScopeId
  | request q w => q.tags w
  | call _ | invoke _ => []

/-- The scope numbers that a run hands out, in order. -/
def Prog.tags {α : Type} (c : Catalog) (budget : Nat) (p : Prog α) (w : World) : List ScopeId :=
  (p.events c budget w).flatMap Event.tags

namespace Outcome

variable {α β : Type} {first : ScopeId}

/-- The scope numbers follow on one another from the first, and the world that the outcome
leaves, if any, has the one after them to give next. -/
structure Numbers (o : Outcome α) (first : ScopeId) (ts : List ScopeId) : Prop where
  range : ts = List.range' first ts.length
  next : ∀ r w, o = .finished r w → w.nextScope = first + ts.length

namespace Numbers

theorem halted (h : Halt) : (halted h : Outcome α).Numbers first [] := ⟨rfl, nofun⟩

/-- Numbers that were handed out before a run. -/
theorem after {o : Outcome α} {ts us : List ScopeId} (hts : ts = List.range' first ts.length)
    (h : o.Numbers (first + ts.length) us) : o.Numbers first (ts ++ us) := by
  refine ⟨?_, fun r w hw => ?_⟩
  · rw [List.length_append, ← List.range'_append_1, ← h.range, ← hts]
  · rw [h.next r w hw, List.length_append, Nat.add_assoc]

/-- A part of a program and what comes after it. -/
theorem onward {o : Outcome α} {k : Except Fault α → World → Outcome β} {ts : List ScopeId}
    {us : Except Fault α → World → List ScopeId} (h : o.Numbers first ts)
    (hk : ∀ r w, (k r w).Numbers w.nextScope (us r w)) :
    (o.onward k).Numbers first (ts ++ o.followed us) := by
  refine after h.range ?_
  cases o with
  | halted => exact .halted _
  | finished r w => exact h.next r w rfl ▸ hk r w

end Numbers

end Outcome

namespace Prog

variable {c : Catalog} {rounds : Nat} {nested : Prog Value → World → Outcome Value}
  {inner : Prog Value → World → List Event} {α : Type}

theorem numbers_eventsWith
    (hinner : ∀ p w, (nested p w).Numbers w.nextScope ((inner p w).flatMap Event.tags))
    (p : Prog α) (w : World) : (p.runWith c rounds nested w).Numbers w.nextScope
      ((p.eventsWith c rounds nested inner w).flatMap Event.tags) := by
  induction p generalizing w with
  | done =>
    refine ⟨rfl, fun r w' h => ?_⟩
    cases h
    rfl
  | halt => exact .halted _
  | bounded next ih => exact ih rounds w
  | ask q next ih =>
    have h := ih (q.answer c w).1 (q.answer c w).2
    rw [Query.nextScope_answer] at h
    rw [eventsWith, List.flatMap_cons]
    refine .after ?_ h
    cases q <;> rfl
  | function g code next _ ih =>
    exact ih w.functions.size { w with functions := w.functions.push ⟨code, g⟩ }
  | call f arg next ih =>
    cases hf : w.functions[f]? with
    | none =>
      simp only [runWith, eventsWith, hf]
      exact .halted _
    | some found =>
      rw [runWith_call c w rounds nested arg next hf,
        eventsWith_call c w rounds nested inner arg next hf, List.flatMap_cons,
        List.flatMap_append, Outcome.flatMap_followed]
      exact (hinner _ _).onward fun r w' => ih r _
  | invoke d request args next ih =>
    cases hd : c.get? d with
    | none =>
      simp only [runWith, eventsWith, hd]
      exact .halted _
    | some definition =>
      rw [runWith_invoke c w rounds nested request args next hd,
        eventsWith_invoke c w rounds nested inner request args next hd, List.flatMap_cons,
        List.flatMap_append, Outcome.flatMap_followed]
      exact (hinner _ _).onward fun r w' => ih r _
  | within s body next ih ihNext =>
    rw [runWith_within, eventsWith, List.flatMap_append, Outcome.flatMap_followed]
    exact (ih _).onward fun r w' => ihNext r _

theorem numbers_nestedEvents (b : Nat) (p : Prog Value) (w : World) :
    (Prog.nested c b p w).Numbers w.nextScope ((nestedEvents c b p w).flatMap Event.tags) := by
  induction b generalizing p w with
  | zero => exact .halted _
  | succ b ih =>
    rw [nested_succ]
    exact numbers_eventsWith ih p w

/-- The scope numbers of a run follow on one another, and the next one is left to be given. -/
theorem numbers_tags (c : Catalog) (b : Nat) (p : Prog α) (w : World) :
    (p.run c b w).Numbers w.nextScope (p.tags c b w) :=
  numbers_eventsWith (numbers_nestedEvents b) p w

/-- No scope number is handed out twice in a run. -/
theorem nodup_tags (c : Catalog) (b : Nat) (p : Prog α) (w : World) : (p.tags c b w).Nodup := by
  rw [(numbers_tags c b p w).range]
  exact List.nodup_range'

end Prog

end EffectLayers
