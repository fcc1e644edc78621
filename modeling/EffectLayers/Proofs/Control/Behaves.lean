import EffectLayers.Proofs.Control.Behaviour
import EffectLayers.Proofs.Program.Growth

/-!
# Programs with a behaviour

A program has a behaviour if it shows it from every world that knows at least so much and in
which one definition is installed, for exactly so many nested calls. What the program makes
meanwhile is of no concern: function values and scope numbers are only added.

## Main definitions

* `Behaviour.Shown`: an outcome shows a behaviour, its results being encoded.
* `Prog.Behaves`: a program has a behaviour.

## Main statements

* `Prog.Behaves.bind`, `Prog.Behaves.holding`, `Prog.Behaves.call` and the like: one rule for
  every way of making programs.
-/

namespace EffectLayers

variable {α β γ : Type}

/-- From a world, an outcome shows a behaviour: it halts without calls to spend, or it ends so
in the same frame, with so much appended to the log. -/
def Behaviour.Shown (enc : α → β) (w : World) : Behaviour α → Outcome β → Prop
  | exhausted, o => o = .halted .exhausted
  | ended r l, o => ∃ w', o = .finished (r.map enc) w' ∧ w.Grows w' ∧ w'.toFrame = w.toFrame ∧
      w'.log = w.log ++ l.toArray

/-- With `b` nested calls to spend and `host` installed, the program has a behaviour from every
world that knows what `w₀` knows. -/
def Prog.Behaves (c : Catalog) (host : DefId) (b : Nat) (w₀ : World) (enc : α → β) (p : Prog β)
    (φ : Behaviour α) : Prop :=
  ∀ w : World, w₀.Grows w → w.ambient = some host → φ.Shown enc w (p.run c b w)

/-- What is shown from a world that has grown in the same frame, with nothing logged, is shown from
the world before. -/
theorem Behaviour.Shown.of_grows {enc : α → β} {w w' : World} {φ : Behaviour α} {o : Outcome β}
    (h : φ.Shown enc w' o) (hg : w.Grows w') (hframe : w'.toFrame = w.toFrame)
    (hlog : w'.log = w.log) : φ.Shown enc w o := by
  cases φ with
  | exhausted => exact h
  | ended r l =>
    obtain ⟨w'', ho, hg', hf', hl⟩ := h
    exact ⟨w'', ho, hg.trans hg', hf'.trans hframe, hlog ▸ hl⟩

namespace Prog.Behaves

variable {c : Catalog} {host : DefId} {b : Nat} {w₀ w₁ : World} {enc : α → β} {enc' : γ → β}
  {p : Prog β} {φ : Behaviour α}

theorem mono (hp : Behaves c host b w₀ enc p φ) (h : w₀.Grows w₁) :
    Behaves c host b w₁ enc p φ :=
  fun w hw => hp w (h.trans hw)

theorem ofExcept (r : Except Fault α) :
    Behaves c host b w₀ enc (.done (r.map enc)) (.ofExcept r) :=
  fun w _ _ => ⟨w, rfl, .refl w, rfl, by simp⟩

theorem pure (a : α) : Behaves c host b w₀ enc (Pure.pure (enc a)) (Pure.pure a) :=
  ofExcept (.ok a)

theorem throw (e : Fault) : Behaves c host b w₀ enc (MonadExcept.throw e) (.ofExcept (.error e)) :=
  ofExcept (.error e)

/-- Encoding the results further is the same as another result. -/
theorem map_iff {δ : Type} (g : δ → α) {φ : Behaviour δ} :
    Behaves c host b w₀ enc p (φ.map g) ↔ Behaves c host b w₀ (enc ∘ g) p φ := by
  have key (w : World) (o : Outcome β) : (φ.map g).Shown enc w o ↔ φ.Shown (enc ∘ g) w o := by
    rcases φ with _ | ⟨_ | a, l⟩ <;> rfl
  simp only [Behaves, key]

/-- One program after another: the second starts in a world that has grown. -/
theorem bind {δ : Type} {enc' : γ → δ} {k : β → Prog δ} {ψ : α → Behaviour γ}
    (hp : Behaves c host b w₀ enc p φ)
    (hk : ∀ a, Behaves c host b w₀ enc' (k (enc a)) (ψ a)) :
    Behaves c host b w₀ enc' (p >>= k) (φ >>= ψ) := by
  intro w hw hs
  have h := hp w hw hs
  rw [run_bind]
  rcases φ with _ | ⟨e | a, l⟩
  · rw [show p.run c b w = .halted .exhausted from h]
    rfl
  · obtain ⟨w', ho, hg, hf, hl⟩ := h
    rw [ho]
    exact ⟨w', rfl, hg, hf, hl⟩
  · obtain ⟨w', ho, hg, hf, hl⟩ := h
    have hs' : w'.ambient = some host := by rw [hf, hs]
    have h' := hk a w' (hw.trans hg) hs'
    rw [ho]
    simp only [Behaviour.bind_def, Behaviour.bind]
    cases hψ : ψ a with
    | exhausted =>
      rw [hψ] at h'
      exact h'
    | ended r m =>
      rw [hψ] at h'
      obtain ⟨w'', ho', hg', hf', hl'⟩ := h'
      refine ⟨w'', ho', hg.trans hg', hf'.trans hf, ?_⟩
      rw [hl', hl]
      simp

/-- A program that only answers `v` is of no concern to what comes after it. -/
theorem skip {v : γ} {q : Prog γ} {k : γ → Prog β}
    (hq : Behaves c host b w₀ (fun _ : Unit => v) q (Pure.pure ()))
    (hk : Behaves c host b w₀ enc (k v) φ) : Behaves c host b w₀ enc (q >>= k) φ := by
  have h := hq.bind fun _ => hk
  rwa [pure_bind] at h

/-- A step that only changes how results are encoded. -/
theorem encoded {δ : Type} {enc' : α → δ} {k : β → Prog δ} (hp : Behaves c host b w₀ enc p φ)
    (hk : ∀ a, k (enc a) = Pure.pure (enc' a)) : Behaves c host b w₀ enc' (p >>= k) φ := by
  have h := hp.bind fun a => hk a ▸ pure a
  rwa [bind_pure] at h

/-- A step that changes the results. -/
theorem mapped {δ : Type} {enc' : γ → δ} {g : α → γ} {k : β → Prog δ}
    (hp : Behaves c host b w₀ enc p φ)
    (hk : ∀ a, Behaves c host b w₀ enc' (k (enc a)) (Pure.pure (g a))) :
    Behaves c host b w₀ enc' (p >>= k) (φ.map g) :=
  Behaviour.map_eq_bind g φ ▸ hp.bind hk

/-- A scope in which the definition stays installed is of no concern. -/
theorem inside {s : Scope} (hp : Behaves c host b w₀ enc p φ)
    (henter : ∀ f : Frame, f.ambient = some host → (s.enter f).ambient = some host)
    (hleave : ∀ f g : Frame, f.ambient = some host → g.ambient = some host → s.leave f g = f) :
    Behaves c host b w₀ enc (Prog.inside s p) φ := by
  intro w hw hs
  have h := hp (w.entering s) (hw.entering s) (henter _ hs)
  rw [run_inside]
  cases φ with
  | exhausted =>
    rw [show p.run c b _ = .halted .exhausted from h]
    rfl
  | ended r l =>
    obtain ⟨w', ho, hg, hf, hl⟩ := h
    rw [ho]
    refine ⟨_, rfl, ⟨hg.functions, hg.scopes⟩, ?_, hl⟩
    refine hleave _ _ hs ?_
    rw [hf]
    exact henter _ hs

theorem holding (h : Holding) (hp : Behaves c host b w₀ enc p φ) :
    Behaves c host b w₀ enc (Prog.holding h p) φ :=
  hp.inside (fun _ hf => hf) fun f g hf hg => by rw [Scope.leave, hg, ← hf]

theorem installed (hp : Behaves c host b w₀ enc p φ) :
    Behaves c host b w₀ enc (Prog.inside (.installed host) p) φ :=
  hp.inside (fun _ _ => rfl) fun _ _ _ _ => rfl

/-- The rounds of a loop are bounded by the nested calls. -/
theorem bounded {next : Nat → Prog β} (h : Behaves c host b w₀ enc (next b) φ) :
    Behaves c host b w₀ enc (.bounded next) φ := h

/-- A function value that was just made is known from then on. -/
theorem reify {δ : Type} {enc : α → δ} {k : Value → Prog δ} (f : Callback)
    (h : ∀ (id : FuncId) (w₁ : World), w₀.Grows w₁ → w₁.functions[id]? = some f →
      Behaves c host b w₁ enc (k (.func id)) φ) :
    Behaves c host b w₀ enc (f.reify >>= k) φ := by
  intro w hw hs
  let w' : World := { w with functions := w.functions.push f }
  have hg : w.Grows w' := .push w f
  have hf : w'.functions[w.functions.size]? = some f := by simp [w']
  have h' := h w.functions.size w' (hw.trans hg) hf w' (.refl w') hs
  have hrun : (f.reify >>= k).run c b w = (k (.func w.functions.size)).run c b w' := rfl
  rw [hrun]
  exact h'.of_grows hg rfl rfl

/-- Calling a known function value spends a call. -/
theorem call {enc : α → Value} {φ : Nat → Behaviour α} {id : FuncId} {f : Callback} {v : Value}
    (hf : w₀.functions[id]? = some f)
    (h : ∀ b, Behaves c host b w₀ enc (f.code v) (φ b)) :
    Behaves c host b w₀ enc (Value.call (.func id) v) (.deeper b φ) := by
  intro w hw hs
  have hf' := hw.functions id f hf
  cases b with
  | zero => exact run_call_zero c w v _ hf'
  | succ b =>
    have h' := (h b).holding { values := [.func id] } w hw hs
    rw [Prog.holding, run_inside] at h'
    rw [Value.call, run_call c b w v _ hf']
    exact h'

/-- An operation of the installed definition spends a call. -/
theorem invoke {enc : α → Value} {φ : Nat → Behaviour α} {d : Definition} {op : Operation}
    {args : List Value} (hd : c.get? host = some d)
    (h : ∀ b, Behaves c host b w₀ enc (d.table.apply op args) (φ b)) :
    Behaves c host b w₀ enc (DefId.invoke host op args) (.deeper b φ) := by
  intro w hw hs
  cases b with
  | zero => exact run_invoke_zero c w _ args _ hd
  | succ b =>
    have h' := (h b).holding { definitions := [host] } w hw hs
    rw [Prog.holding, run_inside] at h'
    rw [DefId.invoke, DefId.request, run_invoke c b w _ args _ hd]
    exact h'

/-- An operation of whichever definition is installed is one of that definition. -/
theorem ambient {enc : α → Value} {op : Operation} {args : List Value} {φ : Behaviour α}
    (h : Behaves c host b w₀ enc (DefId.invoke host op args) φ) :
    Behaves c host b w₀ enc (Ambient.invoke op args) φ := by
  intro w hw hs
  rw [Ambient.invoke, run_bind, Ambient.run_definition c b hs]
  exact h w hw hs

theorem log (v : Value) :
    Behaves c host b w₀ (fun u : Unit => u) (Prog.query (.log v)) (.ended (.ok ()) [v]) :=
  fun w _ _ => ⟨w.record v, rfl, ⟨fun _ _ h => h, Nat.le_refl _⟩, rfl,
    by simp [World.record]⟩

/-- A fresh scope is none that was known before, and is known from then on. -/
theorem freshScope {k : ScopeId → Prog β}
    (h : ∀ (t : ScopeId) (w₁ : World), w₀.Grows w₁ → w₀.nextScope ≤ t → t < w₁.nextScope →
      Behaves c host b w₁ enc (k t) φ) :
    Behaves c host b w₀ enc (Prog.query .freshScope >>= k) φ := by
  intro w hw hs
  let w' : World := { w with nextScope := w.nextScope + 1 }
  have hg : w.Grows w' := ⟨fun _ _ h => h, Nat.le_succ _⟩
  have h' := h w.nextScope w' (hw.trans hg) hw.scopes (Nat.lt_succ_self _) w' (.refl w') hs
  have hrun : (Prog.query .freshScope >>= k).run c b w = (k w.nextScope).run c b w' := rfl
  rw [hrun]
  exact h'.of_grows hg rfl rfl

/-- The installed definition is alive. -/
theorem alive (hhost : host ∈ c.lineage host) {k : Bool → Prog β}
    (h : Behaves c host b w₀ enc (k true) φ) :
    Behaves c host b w₀ enc (Prog.query (.alive host) >>= k) φ := by
  intro w hw hs
  have halive : w.alive c host = true := by
    refine (World.alive_iff c w host).mpr ⟨host, .inl ?_, hhost⟩
    simp [World.roots, hs]
  have hrun : (Prog.query (.alive host) >>= k).run c b w = (k (w.alive c host)).run c b w := rfl
  rw [hrun, halive]
  exact h w hw hs

end Prog.Behaves

end EffectLayers
