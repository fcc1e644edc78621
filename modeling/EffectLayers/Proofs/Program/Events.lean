import EffectLayers.Proofs.Program.Equations

/-!
# What happens in a run

The requests that a run makes, and the function values and definitions that it uses, in order. What
a run does with some of them alone, as with the requests for scope numbers, is read off this list.

## Main definitions

* `Event`: a request, or that a function value or a definition is used.
* `Prog.events`: the events of a run.
-/

namespace EffectLayers

universe u v

/-- What happens in a run: a request is made in a world, a function value is called, or a definition
is asked for something. -/
inductive Event : Type 1 where
  | request (q : Query) (w : World)
  | call (f : FuncId)
  | invoke (d : DefId)

namespace Outcome

variable {α : Type} {β : Type u} {γ : Type v}

/-- What comes of the result and the world that an outcome leaves; nothing for a halt. -/
def followed : Outcome α → (Except Fault α → World → List β) → List β
  | halted _, _ => []
  | finished r w, f => f r w

theorem flatMap_followed (o : Outcome α) (f : Except Fault α → World → List β) (g : β → List γ) :
    (o.followed f).flatMap g = o.followed fun r w => (f r w).flatMap g := by
  cases o <;> rfl

end Outcome

namespace Prog

/-- The events of a run, in order; `nested` runs the code of functions and operations, and `inner`
tells what happens in it. -/
def eventsWith (c : Catalog) (rounds : Nat) (nested : Prog Value → World → Outcome Value)
    (inner : Prog Value → World → List Event) : {α : Type} → Prog α → World → List Event
  | _, done _, _ => []
  | _, halt _, _ => []
  | _, bounded next, w => (next rounds).eventsWith c rounds nested inner w
  | _, ask q next, w =>
    .request q w :: (next (q.answer c w).1).eventsWith c rounds nested inner (q.answer c w).2
  | _, function h code next, w =>
    (next w.functions.size).eventsWith c rounds nested inner
      { w with functions := w.functions.push ⟨code, h⟩ }
  | _, call f arg next, w =>
    .call f :: match w.functions[f]? with
    | none => []
    | some found =>
      let inside := w.entering (.holding { values := [.func f] })
      inner (found.code arg) inside ++ (nested (found.code arg) inside).followed fun r w' =>
        (next r).eventsWith c rounds nested inner
          (w'.leaving (.holding { values := [.func f] }) w.toFrame)
  | _, invoke d request args next, w =>
    .invoke d :: match c.get? d with
    | none => []
    | some definition =>
      let inside := w.entering (.holding { definitions := [d] })
      let answering := definition.table.answer request args
      inner answering inside ++ (nested answering inside).followed fun r w' =>
        (next r).eventsWith c rounds nested inner
          (w'.leaving (.holding { definitions := [d] }) w.toFrame)
  | _, within s body next, w =>
    body.eventsWith c rounds nested inner (w.entering s) ++
      (body.runWith c rounds nested (w.entering s)).followed fun r w' =>
        (next r).eventsWith c rounds nested inner (w'.leaving s w.toFrame)

section

variable (c : Catalog) (w : World) (rounds : Nat) (nested : Prog Value → World → Outcome Value)
  (inner : Prog Value → World → List Event) {α : Type}

theorem eventsWith_call {f : FuncId} {found : Callback} (arg : Value)
    (next : Except Fault Value → Prog α) (h : w.functions[f]? = some found) :
    (call f arg next).eventsWith c rounds nested inner w =
      .call f :: (inner (found.code arg) (w.entering (.holding { values := [.func f] })) ++
        (nested (found.code arg) (w.entering (.holding { values := [.func f] }))).followed
          fun r w' => (next r).eventsWith c rounds nested inner
            (w'.leaving (.holding { values := [.func f] }) w.toFrame)) := by
  simp only [eventsWith, h]

theorem eventsWith_invoke {d : DefId} {definition : Definition} (request : Request)
    (args : List Value) (next : Except Fault Value → Prog α) (h : c.get? d = some definition) :
    (invoke d request args next).eventsWith c rounds nested inner w =
      .invoke d :: (inner (definition.table.answer request args)
          (w.entering (.holding { definitions := [d] })) ++
        (nested (definition.table.answer request args)
          (w.entering (.holding { definitions := [d] }))).followed
          fun r w' => (next r).eventsWith c rounds nested inner
            (w'.leaving (.holding { definitions := [d] }) w.toFrame)) := by
  simp only [eventsWith, h]

end

/-- What happens inside calls under a budget. -/
def nestedEvents (c : Catalog) : Nat → Prog Value → World → List Event
  | 0, _, _ => []
  | n + 1, p, w => p.eventsWith c n (nested c n) (nestedEvents c n) w

/-- The events of a run, in order. -/
def events {α : Type} (c : Catalog) (budget : Nat) (p : Prog α) (w : World) : List Event :=
  p.eventsWith c budget (nested c budget) (nestedEvents c budget) w

end Prog

end EffectLayers
