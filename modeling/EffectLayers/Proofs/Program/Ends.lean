import EffectLayers.Proofs.Program.Growth

/-!
# How programs end

With enough calls to spend a program ends in one way. Much of what it does meanwhile nobody
notices: it holds something, makes function values or objects, takes scope numbers. The rest is
accounted for by the programs that it runs in turn.

## Main definitions

* `World.Unnoticed`: two worlds differ only in what is in use and what was made.
* `Prog.Ends`: a program ends so.
* `Prog.Gave`: a value is an answer that a program gave.
* `InTurn`: programs ran one after another, and nothing else that anybody notices.
* `Prog.Amounts`: a program amounts to others, run in turn, and one more for its answer.

## Main statements

* `Prog.Ends.bind`, `Prog.Ends.holding` and the like: one rule for every way of making programs.
* `Prog.Amounts.bind`, `Prog.Amounts.holding`: what a sequence and a scope amount to.
-/

namespace EffectLayers

/-! ## What nobody notices -/

/-- The world `w'` differs from `w` only in what is in use and in what was made: function values,
sequences, objects and scope numbers. -/
structure World.Unnoticed (w w' : World) : Prop where
  grows : w.Grows w'
  ambient : w'.ambient = w.ambient
  names : w'.names = w.names
  brands : w'.brands = w.brands
  log : w'.log = w.log
  sequences : ∀ (i : SequenceId) (s : Sequence), w.sequences[i]? = some s →
    w'.sequences[i]? = some s
  identities : w.nextIdentity ≤ w'.nextIdentity

namespace World.Unnoticed

theorem refl (w : World) : w.Unnoticed w :=
  ⟨.refl w, rfl, rfl, rfl, rfl, fun _ _ h => h, Nat.le_refl _⟩

theorem trans {u v w : World} (h : u.Unnoticed v) (g : v.Unnoticed w) : u.Unnoticed w where
  grows := h.grows.trans g.grows
  ambient := g.ambient.trans h.ambient
  names := g.names.trans h.names
  brands := g.brands.trans h.brands
  log := g.log.trans h.log
  sequences i s hs := g.sequences i s (h.sequences i s hs)
  identities := Nat.le_trans h.identities g.identities

theorem entering (w : World) (h : Holding) : w.Unnoticed (w.entering (.holding h)) :=
  ⟨.entering (.refl w) _, rfl, rfl, rfl, rfl, fun _ _ h => h, Nat.le_refl _⟩

theorem leaving (w : World) (h : Holding) (before : Frame) :
    w.Unnoticed (w.leaving (.holding h) before) :=
  ⟨.leaving (.refl w) _ _, rfl, rfl, rfl, rfl, fun _ _ h => h, Nat.le_refl _⟩

theorem freshScope (c : Catalog) (w : World) :
    w.Unnoticed (Query.freshScope.answer c w).2 :=
  ⟨.answer c w _, rfl, rfl, rfl, rfl, fun _ _ h => h, Nat.le_refl _⟩

end World.Unnoticed

/-! ## Ends -/

namespace Prog

variable {c : Catalog} {α β : Type}

/-- With enough calls to spend, the program ends with the result and leaves the world `w'`. -/
def Ends (c : Catalog) (p : Prog α) (w : World) (r : Except Fault α) (w' : World) : Prop :=
  ∃ n, ∀ b, n ≤ b → p.run c b w = .finished r w'

namespace Ends

variable {p : Prog α} {w w₁ w₂ : World}

theorem done (r : Except Fault α) (w : World) : (Prog.done r).Ends c w r w :=
  ⟨0, fun _ _ => rfl⟩

theorem query (q : Query) (w : World) :
    (Prog.query q).Ends c w (.ok (q.answer c w).1) (q.answer c w).2 :=
  ⟨0, fun _ _ => rfl⟩

theorem bind {k : α → Prog β} {a : α} {r : Except Fault β} (hp : p.Ends c w (.ok a) w₁)
    (hk : (k a).Ends c w₁ r w₂) : (p >>= k).Ends c w r w₂ := by
  obtain ⟨n, hp⟩ := hp
  obtain ⟨m, hk⟩ := hk
  refine ⟨max n m, fun b hb => ?_⟩
  rw [run_bind, hp b (by omega)]
  exact hk b (by omega)

theorem holding {r : Except Fault α} (h : Holding)
    (hp : p.Ends c (w.entering (.holding h)) r w₁) :
    (Prog.holding h p).Ends c w r (w₁.leaving (.holding h) w.toFrame) := by
  obtain ⟨n, hp⟩ := hp
  refine ⟨n, fun b hb => ?_⟩
  rw [Prog.holding, run_inside, hp b hb]
  rfl

/-- A program ends in one way. -/
theorem unique {r r' : Except Fault α} (h : p.Ends c w r w₁) (h' : p.Ends c w r' w₂) :
    r = r' ∧ w₁ = w₂ := by
  obtain ⟨n, h⟩ := h
  obtain ⟨m, h'⟩ := h'
  have hrun := (h (max n m) (by omega)).symm.trans (h' (max n m) (by omega))
  simpa using hrun

theorem grows {r : Except Fault α} (h : p.Ends c w r w₁) : w.Grows w₁ := by
  obtain ⟨n, h⟩ := h
  exact run_grows p (h n (Nat.le_refl n))

end Ends

/-- The value is an answer that the program gave in some world from which this one grew. -/
def Gave (c : Catalog) (p : Prog α) (a : α) (w : World) : Prop :=
  ∃ w₀ w₁, p.Ends c w₀ (.ok a) w₁ ∧ w₁.Grows w

theorem Gave.mono {p : Prog α} {a : α} {w w' : World} (h : p.Gave c a w) (hw : w.Grows w') :
    p.Gave c a w' := by
  obtain ⟨w₀, w₁, hp, hw₁⟩ := h
  exact ⟨w₀, w₁, hp, hw₁.trans hw⟩

theorem Ends.gave {p : Prog α} {a : α} {w w' : World} (h : p.Ends c w (.ok a) w') :
    p.Gave c a w' :=
  ⟨w, w', h, .refl w'⟩

/-- A program that only answers gives nothing else. -/
theorem Gave.eq_of_pure {a v : α} {w : World} (h : (pure v : Prog α).Gave c a w) : a = v := by
  obtain ⟨w₀, w₁, hp, -⟩ := h
  exact Except.ok.inj (hp.unique (.done _ w₀)).1

end Prog

/-! ## One after another -/

/-- From `w` to `w'` the programs ran one after another, each to an answer, and nothing else
happened that anybody notices. -/
def InTurn (c : Catalog) : List (Prog Value) → World → World → Prop
  | [], w, w' => w.Unnoticed w'
  | p :: ps, w, w' => ∃ w₁ a w₂, w.Unnoticed w₁ ∧ p.Ends c w₁ (.ok a) w₂ ∧ InTurn c ps w₂ w'

namespace InTurn

variable {c : Catalog} {ps qs : List (Prog Value)} {w w₁ w₂ : World}

theorem after (h : w.Unnoticed w₁) (hps : InTurn c ps w₁ w₂) : InTurn c ps w w₂ := by
  cases ps with
  | nil => exact h.trans hps
  | cons p ps =>
    obtain ⟨u, a, v, hu, hp, hps⟩ := hps
    exact ⟨u, a, v, h.trans hu, hp, hps⟩

theorem append (hps : InTurn c ps w w₁) (hqs : InTurn c qs w₁ w₂) :
    InTurn c (ps ++ qs) w w₂ := by
  induction ps generalizing w with
  | nil => exact after hps hqs
  | cons p ps ih =>
    obtain ⟨u, a, v, hu, hp, hps⟩ := hps
    exact ⟨u, a, v, hu, hp, ih hps⟩

theorem before (hps : InTurn c ps w w₁) (h : w₁.Unnoticed w₂) : InTurn c ps w w₂ := by
  have happend : InTurn c (ps ++ []) w w₂ := append hps h
  rwa [List.append_nil] at happend

end InTurn

namespace Prog

variable {c : Catalog}

/-- From `w` the program runs the others in turn and does nothing else that anybody notices;
its answer is one that `q` gave. -/
def Amounts (c : Catalog) (p : Prog Value) (w : World) (ps : List (Prog Value)) (q : Prog Value) :
    Prop :=
  ∃ a w', p.Ends c w (.ok a) w' ∧ InTurn c ps w w' ∧ q.Gave c a w'

namespace Amounts

variable {p q q' : Prog Value} {ps qs : List (Prog Value)} {w : World}

/-- A program that only answers what `q` gave. -/
theorem answer {a : Value} (h : q.Gave c a w) : (pure a : Prog Value).Amounts c w [] q :=
  ⟨a, w, .done _ w, .refl w, h⟩

theorem bind {k : Value → Prog Value} (hp : p.Amounts c w ps q)
    (hk : ∀ a w', InTurn c ps w w' → q.Gave c a w' → (k a).Amounts c w' qs q') :
    (p >>= k).Amounts c w (ps ++ qs) q' := by
  obtain ⟨a, w₁, hp, hps, ha⟩ := hp
  obtain ⟨b, w₂, hk, hqs, hb⟩ := hk a w₁ hps ha
  exact ⟨b, w₂, hp.bind hk, hps.append hqs, hb⟩

/-- Nobody notices what comes after the program. -/
theorem bind_unnoticed {k : Value → Prog Value} (hp : p.Amounts c w ps q)
    (hk : ∀ a w', q.Gave c a w' → (k a).Amounts c w' [] q') : (p >>= k).Amounts c w ps q' := by
  have h := hp.bind fun a w' _ ha => hk a w' ha
  rwa [List.append_nil] at h

theorem holding (h : Holding) (hp : p.Amounts c (w.entering (.holding h)) ps q) :
    (Prog.holding h p).Amounts c w ps q := by
  obtain ⟨a, w₁, hp, hps, ha⟩ := hp
  have hleave := World.Unnoticed.leaving w₁ h w.toFrame
  refine ⟨a, _, hp.holding h, ?_, ha.mono hleave.grows⟩
  exact (InTurn.after (.entering w h) hps).before hleave

/-- A step that nobody notices comes first. -/
theorem after {α : Type} {p : Prog α} {k : α → Prog Value} {a : α} {w₁ : World}
    (hp : p.Ends c w (.ok a) w₁) (hw : w.Unnoticed w₁) (hk : (k a).Amounts c w₁ ps q) :
    (p >>= k).Amounts c w ps q := by
  obtain ⟨b, w₂, hk, hps, hb⟩ := hk
  exact ⟨b, w₂, hp.bind hk, hps.after hw, hb⟩

end Amounts

end Prog

end EffectLayers
