import EffectLayers.Dispatch
import EffectLayers.Program.Run

/-!
# Running a program, request by request

What a run does with each request of a program, in terms of the runs of its parts.

## Main definitions

* `World.entering`, `World.leaving`: the world inside a scope and after it.
* `Outcome.onward`: go on with a result, a fault or not.

## Main statements

* `Prog.run_ask`, `Prog.run_call`, `Prog.run_invoke`, `Prog.run_within` and the like: one
  equation for every request.
* `Prog.runWith_call_eq_finished`, `Prog.runWith_invoke_eq_finished`: what ended if a call or a
  request to a definition did.
-/

namespace EffectLayers

/-- The world inside a scope that is entered from `w`. -/
def World.entering (w : World) (s : Scope) : World := { w with toFrame := s.enter w.toFrame }

/-- The world after a scope that was entered from the frame `before`. -/
def World.leaving (w : World) (s : Scope) (before : Frame) : World :=
  { w with toFrame := s.leave before w.toFrame }

namespace Outcome

variable {α β : Type}

/-- Go on with the result, a fault or not, and the world; a halt is kept. -/
def onward : Outcome α → (Except Fault α → World → Outcome β) → Outcome β
  | halted h, _ => halted h
  | finished r w, f => f r w

@[simp] theorem onward_finished (r : Except Fault α) (w : World)
    (f : Except Fault α → World → Outcome β) : (finished r w).onward f = f r w := rfl

theorem onward_eq_finished {o : Outcome α} {k : Except Fault α → World → Outcome β}
    {r : Except Fault β} {w : World} (h : o.onward k = .finished r w) :
    ∃ r' w', o = .finished r' w' ∧ k r' w' = .finished r w := by
  cases o with
  | halted => cases h
  | finished r' w' => exact ⟨r', w', rfl, h⟩

theorem onward_bind {γ : Type} (o : Outcome α) (f : α → Except Fault γ)
    (k : Except Fault γ → World → Outcome β) :
    (o.bind fun a w => .finished (f a) w).onward k = o.onward fun r w => k (r >>= f) w := by
  rcases o with h | ⟨e | a, w⟩ <;> rfl

end Outcome

namespace Prog

variable {α β : Type} (c : Catalog) (b : Nat) (w : World)

@[simp] theorem run_done (r : Except Fault α) : (done r).run c b w = .finished r w := rfl

@[simp] theorem run_pure (a : α) : (pure a : Prog α).run c b w = .finished (.ok a) w := rfl

@[simp] theorem run_throw (e : Fault) :
    (throw e : Prog α).run c b w = .finished (.error e) w := rfl

@[simp] theorem run_halt (h : Halt) : (halt h : Prog α).run c b w = .halted h := rfl

theorem run_ask (q : Query) (next : q.Answer → Prog α) :
    (ask q next).run c b w = (next (q.answer c w).1).run c b (q.answer c w).2 := rfl

theorem run_query (q : Query) :
    (query q).run c b w = .finished (.ok (q.answer c w).1) (q.answer c w).2 := rfl

theorem run_query_bind (q : Query) (f : q.Answer → Prog α) :
    (query q >>= f).run c b w = (f (q.answer c w).1).run c b (q.answer c w).2 := rfl

theorem run_function (h : Holding) (code : Value → Prog Value) (next : FuncId → Prog α) :
    (function h code next).run c b w =
      (next w.functions.size).run c b { w with functions := w.functions.push ⟨code, h⟩ } := rfl

theorem nested_succ (p : Prog Value) : nested c (b + 1) p w = p.run c b w :=
  runValue_eq_run c b p w

/-- What is no function value is not called. -/
theorem run_call_none {f : FuncId} (arg : Value) (next : Except Fault Value → Prog α)
    (h : w.functions[f]? = none) : (call f arg next).run c b w = .halted .meaningless := by
  simp [run, runWith, h]

/-- Without a budget no function value is called. -/
theorem run_call_zero {f : FuncId} {found : Callback} (arg : Value)
    (next : Except Fault Value → Prog α) (h : w.functions[f]? = some found) :
    (call f arg next).run c 0 w = .halted .exhausted := by
  simp [run, runWith, h, nested]

section

variable (rounds : Nat) (nested : Prog Value → World → Outcome Value)

theorem runWith_call {f : FuncId} {found : Callback} (arg : Value)
    (next : Except Fault Value → Prog α) (h : w.functions[f]? = some found) :
    (call f arg next).runWith c rounds nested w =
      (nested (found.code arg) (w.entering (.holding { values := [.func f] }))).onward
        fun r w' => (next r).runWith c rounds nested
          (w'.leaving (.holding { values := [.func f] }) w.toFrame) := by
  simp only [runWith, h, World.entering, World.leaving]
  split <;> simp only [*, Outcome.onward]

theorem runWith_invoke {d : DefId} {definition : Definition} (r : Request) (args : List Value)
    (next : Except Fault Value → Prog α) (h : c.get? d = some definition) :
    (invoke d r args next).runWith c rounds nested w =
      (nested (definition.table.answer r args)
        (w.entering (.holding { definitions := [d] }))).onward
        fun r w' => (next r).runWith c rounds nested
          (w'.leaving (.holding { definitions := [d] }) w.toFrame) := by
  simp only [runWith, h, World.entering, World.leaving]
  split <;> simp only [*, Outcome.onward]

theorem runWith_within (s : Scope) (body : Prog β) (next : Except Fault β → Prog α) :
    (within s body next).runWith c rounds nested w =
      (body.runWith c rounds nested (w.entering s)).onward
        fun r w' => (next r).runWith c rounds nested (w'.leaving s w.toFrame) := by
  simp only [runWith, World.entering, World.leaving]
  split <;> simp only [*, Outcome.onward]

variable {c w rounds nested} {r : Except Fault α} {w' : World}

/-- A call that ends is that of a function value, the code of which ends first. -/
theorem runWith_call_eq_finished {f : FuncId} {arg : Value} {next : Except Fault Value → Prog α}
    (h : (call f arg next).runWith c rounds nested w = .finished r w') :
    ∃ found r' w₁, w.functions[f]? = some found ∧
      nested (found.code arg) (w.entering (.holding { values := [.func f] })) =
        .finished r' w₁ ∧
      (next r').runWith c rounds nested
        (w₁.leaving (.holding { values := [.func f] }) w.toFrame) = .finished r w' := by
  cases hf : w.functions[f]? with
  | none =>
    simp only [runWith, hf] at h
    cases h
  | some found =>
    rw [runWith_call c w rounds nested arg next hf] at h
    obtain ⟨r', w₁, hcode, hnext⟩ := Outcome.onward_eq_finished h
    exact ⟨found, r', w₁, rfl, hcode, hnext⟩

/-- A request that ends is made of a definition, the answer of which ends first. -/
theorem runWith_invoke_eq_finished {d : DefId} {request : Request} {args : List Value}
    {next : Except Fault Value → Prog α}
    (h : (invoke d request args next).runWith c rounds nested w = .finished r w') :
    ∃ definition r' w₁, c.get? d = some definition ∧
      nested (definition.table.answer request args)
        (w.entering (.holding { definitions := [d] })) = .finished r' w₁ ∧
      (next r').runWith c rounds nested
        (w₁.leaving (.holding { definitions := [d] }) w.toFrame) = .finished r w' := by
  cases hd : c.get? d with
  | none =>
    simp only [runWith, hd] at h
    cases h
  | some definition =>
    rw [runWith_invoke c w rounds nested request args next hd] at h
    obtain ⟨r', w₁, hanswer, hnext⟩ := Outcome.onward_eq_finished h
    exact ⟨definition, r', w₁, rfl, hanswer, hnext⟩

end

/-- A function value runs its code with one call less to spend. -/
theorem run_call {f : FuncId} {found : Callback} (arg : Value)
    (next : Except Fault Value → Prog α) (h : w.functions[f]? = some found) :
    (call f arg next).run c (b + 1) w =
      ((found.code arg).run c b (w.entering (.holding { values := [.func f] }))).onward
        fun r w' => (next r).run c (b + 1)
          (w'.leaving (.holding { values := [.func f] }) w.toFrame) := by
  rw [run, runWith_call c w (b + 1) _ arg next h, nested_succ]
  rfl

/-- What is no definition is not used. -/
theorem run_invoke_none {d : DefId} (r : Request) (args : List Value)
    (next : Except Fault Value → Prog α) (h : c.get? d = none) :
    (invoke d r args next).run c b w = .halted .meaningless := by
  simp [run, runWith, h]

/-- Without a budget no operation is used. -/
theorem run_invoke_zero {d : DefId} {definition : Definition} (r : Request) (args : List Value)
    (next : Except Fault Value → Prog α) (h : c.get? d = some definition) :
    (invoke d r args next).run c 0 w = .halted .exhausted := by
  simp [run, runWith, h, nested]

/-- A definition answers a request with one call less to spend. -/
theorem run_invoke {d : DefId} {definition : Definition} (r : Request) (args : List Value)
    (next : Except Fault Value → Prog α) (h : c.get? d = some definition) :
    (invoke d r args next).run c (b + 1) w =
      ((definition.table.answer r args).run c b
        (w.entering (.holding { definitions := [d] }))).onward
        fun r w' => (next r).run c (b + 1)
          (w'.leaving (.holding { definitions := [d] }) w.toFrame) := by
  rw [run, runWith_invoke c w (b + 1) _ r args next h, nested_succ]
  rfl

theorem run_within (s : Scope) (body : Prog β) (next : Except Fault β → Prog α) :
    (within s body next).run c b w =
      (body.run c b (w.entering s)).onward
        fun r w' => (next r).run c b (w'.leaving s w.toFrame) :=
  runWith_within c w b _ s body next

theorem run_inside (s : Scope) (p : Prog α) :
    (inside s p).run c b w =
      (p.run c b (w.entering s)).onward fun r w' => .finished r (w'.leaving s w.toFrame) := by
  simp only [inside, run_within, run_done]

end Prog

theorem Ambient.run_definition (c : Catalog) (b : Nat) {w : World} {host : DefId}
    (h : w.ambient = some host) : definition.run c b w = .finished (.ok host) w := by
  obtain ⟨⟨ambient, saved, held⟩⟩ := w
  cases h
  rfl

end EffectLayers
