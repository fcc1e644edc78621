import EffectLayers.Program.World

/-!
# Running programs

A program runs in a world and leaves one. Calls of function values and of operations nest at
most as deep as a budget allows, which also bounds the rounds of loops; running out of it is
told apart from every outcome.

## Main definitions

* `Outcome`: the end of a run.
* `Prog.run`: run a program with a budget.

## Main statements

* `Prog.run_bind`: a sequence of programs runs one after the other.
-/

namespace EffectLayers

/-- The end of a run. -/
inductive Outcome (α : Type) : Type 1 where
  | halted (reason : Halt)
  | finished (result : Except Fault α) (w : World)

namespace Outcome

variable {α β : Type}

/-- Go on with the result and the world; a fault or a halt is kept. -/
def bind : Outcome α → (α → World → Outcome β) → Outcome β
  | halted h, _ => halted h
  | finished (.ok a) w, f => f a w
  | finished (.error e) w, _ => finished (.error e) w

end Outcome

namespace Prog

variable {α β : Type}

/-- Run a program; `nested` runs the code of functions and operations. -/
def runWith (c : Catalog) (rounds : Nat) (nested : Prog Value → World → Outcome Value) :
    {α : Type} → Prog α → World → Outcome α
  | _, done r, w => .finished r w
  | _, halt h, _ => .halted h
  | _, bounded next, w => (next rounds).runWith c rounds nested w
  | _, ask q next, w =>
    let (a, w) := q.answer c w
    (next a).runWith c rounds nested w
  | _, function h code next, w =>
    (next w.functions.size).runWith c rounds nested
      { w with functions := w.functions.push ⟨code, h⟩ }
  | _, call f arg next, w =>
    match w.functions[f]? with
    | none => .halted .meaningless
    | some found =>
      let scope : Scope := .holding { values := [.func f] }
      let before := w.toFrame
      match nested (found.code arg) { w with toFrame := scope.enter before } with
      | .halted h => .halted h
      | .finished r w =>
        (next r).runWith c rounds nested { w with toFrame := scope.leave before w.toFrame }
  | _, invoke d request args next, w =>
    match c.get? d with
    | none => .halted .meaningless
    | some definition =>
      let scope : Scope := .holding { definitions := [d] }
      let before := w.toFrame
      match nested (definition.table.answer request args)
        { w with toFrame := scope.enter before } with
      | .halted h => .halted h
      | .finished r w =>
        (next r).runWith c rounds nested { w with toFrame := scope.leave before w.toFrame }
  | _, within s body next, w =>
    let before := w.toFrame
    match body.runWith c rounds nested { w with toFrame := s.enter before } with
    | .halted h => .halted h
    | .finished r w =>
      (next r).runWith c rounds nested { w with toFrame := s.leave before w.toFrame }

/-- Run a program with results that are values. -/
def runValue (c : Catalog) : Nat → Prog Value → World → Outcome Value
  | 0, p, w => p.runWith c 0 (fun _ _ => .halted .exhausted) w
  | n + 1, p, w => p.runWith c (n + 1) (runValue c n) w

/-- What runs inside calls under a budget. -/
def nested (c : Catalog) : Nat → Prog Value → World → Outcome Value
  | 0 => fun _ _ => .halted .exhausted
  | n + 1 => runValue c n

/-- Run a program: calls nest at most `budget` deep, loops have at most `budget` rounds. -/
def run (c : Catalog) (budget : Nat) (p : Prog α) (w : World) : Outcome α :=
  p.runWith c budget (nested c budget) w

theorem runValue_eq_run (c : Catalog) (budget : Nat) (p : Prog Value) (w : World) :
    runValue c budget p w = p.run c budget w := by
  cases budget <;> rfl

theorem runWith_bind (c : Catalog) (rounds : Nat)
    (nested : Prog Value → World → Outcome Value) (p : Prog α) (f : α → Prog β) (w : World) :
    (p.bind f).runWith c rounds nested w =
      (p.runWith c rounds nested w).bind fun a w => (f a).runWith c rounds nested w := by
  induction p generalizing w with
  | done r => cases r <;> rfl
  | halt => rfl
  | bounded next ih => exact ih rounds f w
  | ask q next ih => exact ih (q.answer c w).1 f (q.answer c w).2
  | function h code next _ ih => exact ih w.functions.size f _
  | call g arg next ih =>
    simp only [bind, runWith]
    split
    · rfl
    · split
      · rfl
      · exact ih _ f _
  | invoke d request args next ih =>
    simp only [bind, runWith]
    split
    · rfl
    · split
      · rfl
      · exact ih _ f _
  | within s body next ih ihNext =>
    simp only [bind, runWith]
    split
    · rfl
    · exact ihNext _ f _

/-- A program and its continuation run one after the other. -/
theorem run_bind (c : Catalog) (budget : Nat) (p : Prog α) (f : α → Prog β) (w : World) :
    (p >>= f).run c budget w =
      (p.run c budget w).bind fun a w => (f a).run c budget w :=
  runWith_bind c budget _ p f w

end Prog

end EffectLayers
