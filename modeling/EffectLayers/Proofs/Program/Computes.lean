import EffectLayers.Proofs.Program.Alike
import EffectLayers.Proofs.Program.Growth

/-!
# What programs compute

A program computes a result if it ends with it from every world that is admitted, whatever else it
may do meanwhile. What a program does with an argument that it runs once, it does from a world that
differs only in what is in use, what was made and what is installed.

## Main definitions

* `World.Quiet`: worlds that differ only in frames and in what was made.
* `Setting`: the worlds that programs start from, and what they may change.
* `Prog.Computes`: a program always ends with the same result.
* `Prog.ComputesIn`, `Prog.AnswersIn`: as much with so many calls to spend, for one result and for
  any answer with a property.
* `Prog.Once`: a program runs another one once, and ends as that one does.
* `Prog.OnceThen`: a program runs another one once, and goes on with what that one answers.
* `Prog.Same`: programs that run alike.

## Main statements

* `Prog.Computes.bind`, `Prog.Once.trans` and the like: rules for the ways of making programs.
* `Prog.Once.computes`: what runs a program once that is a result at hand.
-/

namespace EffectLayers

/-! ## Quiet changes -/

namespace World

/-- The worlds differ only in what is installed and in use, and in what was made: function values,
which may be replaced by alike ones, sequences, objects and scope numbers. -/
structure Quiet (w w' : World) : Prop where
  names : w'.names = w.names
  brands : w'.brands = w.brands
  log : w'.log = w.log
  scopes : w.nextScope ≤ w'.nextScope
  identities : w.nextIdentity ≤ w'.nextIdentity
  functions : ∀ (i : FuncId) (f : Callback), w.functions[i]? = some f →
    ∃ f', w'.functions[i]? = some f' ∧ f.Alike f'
  sequences : ∀ (i : SequenceId) (s : Sequence), w.sequences[i]? = some s →
    w'.sequences[i]? = some s

namespace Quiet

theorem refl (w : World) : w.Quiet w :=
  ⟨rfl, rfl, rfl, Nat.le_refl _, Nat.le_refl _, fun _ f h => ⟨f, h, .refl f⟩, fun _ _ h => h⟩

theorem trans {u v w : World} (h : u.Quiet v) (h' : v.Quiet w) : u.Quiet w where
  names := h'.names.trans h.names
  brands := h'.brands.trans h.brands
  log := h'.log.trans h.log
  scopes := Nat.le_trans h.scopes h'.scopes
  identities := Nat.le_trans h.identities h'.identities
  functions i f hf := by
    obtain ⟨g, hg, hfg⟩ := h.functions i f hf
    obtain ⟨k, hk, hgk⟩ := h'.functions i g hg
    exact ⟨k, hk, hfg.trans hgk⟩
  sequences i s hs := h'.sequences i s (h.sequences i s hs)

theorem entering (w : World) (s : Scope) : w.Quiet (w.entering s) :=
  ⟨rfl, rfl, rfl, Nat.le_refl _, Nat.le_refl _, fun _ f h => ⟨f, h, .refl f⟩, fun _ _ h => h⟩

theorem leaving (w : World) (s : Scope) (before : Frame) : w.Quiet (w.leaving s before) :=
  ⟨rfl, rfl, rfl, Nat.le_refl _, Nat.le_refl _, fun _ f h => ⟨f, h, .refl f⟩, fun _ _ h => h⟩

/-- What is entered and left again. -/
theorem within {w w' : World} {s : Scope} (h : (w.entering s).Quiet w') (before : Frame) :
    w.Quiet (w'.leaving s before) :=
  ((entering w s).trans h).trans (leaving w' s before)

theorem of_alike {w w' : World} (h : w.Alike w') : w.Quiet w' := by
  obtain ⟨fs, hsize, halike⟩ := h
  refine ⟨rfl, rfl, rfl, Nat.le_refl _, Nat.le_refl _, fun i f hf => ?_, fun _ _ h => h⟩
  have hi : i < fs.size := by
    rw [hsize]
    exact (Array.getElem?_eq_some_iff.mp hf).1
  exact ⟨fs[i], Array.getElem?_eq_getElem hi, halike i f _ hf (Array.getElem?_eq_getElem hi)⟩

end Quiet

/-- The definition is in use. -/
def Uses (w : World) (d : DefId) : Prop := ∃ h ∈ w.held, d ∈ h.definitions

theorem Uses.entering {w : World} {d : DefId} (h : w.Uses d) (s : Scope) :
    (w.entering s).Uses d := by
  obtain ⟨g, hg, hd⟩ := h
  cases s <;> exact ⟨g, List.mem_cons_of_mem _ hg, hd⟩

/-- A world in which nothing was made and only the definition is in use. -/
def hosting (d : DefId) : World := { World.empty with held := [{ definitions := [d] }] }

/-- What is in use is alive. -/
theorem Uses.alive {w : World} {c : Catalog} {d : DefId} (h : w.Uses d) (hd : d ∈ c.lineage d) :
    w.alive c d = true := by
  obtain ⟨g, hg, hmem⟩ := h
  refine (alive_iff c w d).mpr ⟨d, .inl ?_, hd⟩
  exact List.mem_append_right _ (List.mem_flatMap.mpr ⟨g, hg, hmem⟩)

end World

/-! ## Settings -/

/-- The worlds that programs start from, and what they may change meanwhile. -/
structure Setting where
  catalog : Catalog
  admits : World → Prop
  may : World → World → Prop
  quiet : ∀ {w w'}, w.Quiet w' → w'.toFrame = w.toFrame → may w w'
  trans : ∀ {u v w}, may u v → may v w → may u w
  within : ∀ {w w' s}, may (w.entering s) w' → may w (w'.leaving s w.toFrame)
  entering : ∀ {w} s, admits w → admits (w.entering s)
  keeps : ∀ {w w'}, may w w' → admits w → admits w'

namespace Setting

/-- A definition is in use, and programs change nothing that anybody notices. -/
def silent (c : Catalog) (host : DefId) : Setting where
  catalog := c
  admits w := w.Uses host
  may w w' := w.Quiet w' ∧ w'.toFrame = w.toFrame
  quiet h hframe := ⟨h, hframe⟩
  trans h h' := ⟨h.1.trans h'.1, h'.2.trans h.2⟩
  within {w w' s} h := by
    refine ⟨h.1.within _, ?_⟩
    cases s with
    | holding g => exact congrArg (fun f : Frame => { w.toFrame with ambient := f.ambient }) h.2
    | installed d => rfl
  entering s h := h.entering s
  keeps {w w'} h hw := by
    have hheld : w'.held = w.held := congrArg Frame.held h.2
    rwa [World.Uses, hheld]

/-- A definition is in use, and programs may do whatever they like. -/
def free (c : Catalog) (host : DefId) : Setting where
  catalog := c
  admits w := w.Uses host
  may w w' := w'.held = w.held
  quiet _ hframe := congrArg Frame.held hframe
  trans h h' := h'.trans h
  within {w w' s} _ := by cases s <;> rfl
  entering s h := h.entering s
  keeps h hw := by rwa [World.Uses, h]

/-- The definition is in use in every world that is admitted. -/
def Hosts (S : Setting) (d : DefId) : Prop := ∀ w, S.admits w → w.Uses d

theorem hosts_silent (c : Catalog) (host : DefId) : (silent c host).Hosts host := fun _ h => h

theorem hosts_free (c : Catalog) (host : DefId) : (free c host).Hosts host := fun _ h => h

end Setting

/-! ## Computing -/

namespace Prog

variable {α β : Type} {S : Setting}

/-- With enough calls to spend, the program ends with the result from every world that is
admitted, and changes what it may. -/
def Computes (S : Setting) (p : Prog α) (r : Except Fault α) : Prop :=
  ∃ n, ∀ b w, n ≤ b → S.admits w →
    ∃ w', p.run S.catalog b w = .finished r w' ∧ S.may w w'

/-- As `Computes`, where so many calls are enough. -/
def ComputesIn (S : Setting) (n : Nat) (p : Prog α) (r : Except Fault α) : Prop :=
  ∀ b w, n ≤ b → S.admits w →
    ∃ w', p.run S.catalog b w = .finished r w' ∧ S.may w w'

/-- With so many calls to spend, the program ends with an answer that has the property from every
world that is admitted, and changes what it may. -/
def AnswersIn (S : Setting) (n : Nat) (p : Prog α) (Q : α → Prop) : Prop :=
  ∀ b w, n ≤ b → S.admits w →
    ∃ a w', p.run S.catalog b w = .finished (.ok a) w' ∧ S.may w w' ∧ Q a

/-- The programs run alike. -/
def Same (p q : Prog α) : Prop := ∀ c b w, (p.run c b w).Alike (q.run c b w)

/-- The program answers the value from that world, with no calls to spend. -/
def answers (p : Prog Value) (c : Catalog) (w : World) (v : Value) : Bool :=
  match p.run c 0 w with
  | .finished (.ok u) _ => u == v
  | _ => false

theorem Alike.same {p q : Prog α} (h : p.Alike q) : p.Same q := fun c b w => h.run c b (.refl w)

namespace Same

variable {p q s : Prog α}

theorem refl (p : Prog α) : p.Same p := (Alike.refl p).same

theorem symm (h : p.Same q) : q.Same p := fun c b w => (h c b w).symm

theorem trans (h : p.Same q) (h' : q.Same s) : p.Same s :=
  fun c b w => (h c b w).trans (h' c b w)

theorem bind_left (h : p.Same q) (k : α → Prog β) : (p >>= k).Same (q >>= k) := by
  intro c b w
  rw [run_bind, run_bind]
  have hpq := h c b w
  generalize p.run c b w = o at hpq
  generalize q.run c b w = o' at hpq
  cases hpq with
  | halted h => exact .halted h
  | finished r hw =>
    cases r with
    | error e => exact .finished _ hw
    | ok a => exact (Alike.refl (k a)).run c b hw

theorem answers {p q : Prog Value} (h : p.Same q) (c : Catalog) (w : World) (v : Value) :
    p.answers c w v = q.answers c w v := by
  have hpq := h c 0 w
  unfold Prog.answers
  generalize p.run c 0 w = o at hpq ⊢
  generalize q.run c 0 w = o' at hpq ⊢
  cases hpq with
  | halted h => rfl
  | finished r hw => cases r <;> rfl

end Same

namespace AnswersIn

variable {p : Prog α} {n : Nat} {Q : α → Prop}

/-- What answers depends on the world; what is computed from every answer does not. -/
theorem bind {k : α → Prog β} {r : Except Fault β} (hp : p.AnswersIn S n Q)
    (hk : ∀ a, Q a → (k a).ComputesIn S n r) : (p >>= k).ComputesIn S n r := by
  intro b w hb hw
  obtain ⟨a, w₁, hrun, hw₁, ha⟩ := hp b w hb hw
  obtain ⟨w₂, hrun', hw₂⟩ := hk a ha b w₁ hb (S.keeps hw₁ hw)
  refine ⟨w₂, ?_, S.trans hw₁ hw₂⟩
  rw [run_bind, hrun]
  exact hrun'

theorem map {Q' : β → Prop} {f : α → β} (hp : p.AnswersIn S n Q) (hf : ∀ a, Q a → Q' (f a)) :
    (p >>= fun a => Pure.pure (f a)).AnswersIn S n Q' := by
  intro b w hb hw
  obtain ⟨a, w', hrun, hmay, ha⟩ := hp b w hb hw
  refine ⟨f a, w', ?_, hmay, hf a ha⟩
  rw [run_bind, hrun]
  rfl

theorem mono {m : Nat} (hp : p.AnswersIn S n Q) (hm : n ≤ m) : p.AnswersIn S m Q :=
  fun b w hb => hp b w (Nat.le_trans hm hb)

theorem inside (s : Scope) (hp : p.AnswersIn S n Q) : (Prog.inside s p).AnswersIn S n Q := by
  intro b w hb hw
  obtain ⟨a, w', hrun, hmay, ha⟩ := hp b (w.entering s) hb (S.entering s hw)
  refine ⟨a, w'.leaving s w.toFrame, ?_, S.within hmay, ha⟩
  rw [run_inside, hrun]
  rfl

end AnswersIn

namespace ComputesIn

variable {p : Prog α} {n : Nat} {r : Except Fault α}

theorem mono {m : Nat} (hp : p.ComputesIn S n r) (hm : n ≤ m) : p.ComputesIn S m r :=
  fun b w hb => hp b w (Nat.le_trans hm hb)

theorem done (r : Except Fault α) : (Prog.done r).ComputesIn S 0 r :=
  fun _ w _ _ => ⟨w, rfl, S.quiet (.refl w) rfl⟩

theorem answersIn {a : α} (hp : p.ComputesIn S n (.ok a)) : p.AnswersIn S n (· = a) := by
  intro b w hb hw
  obtain ⟨w', hrun, hmay⟩ := hp b w hb hw
  exact ⟨a, w', hrun, hmay, rfl⟩

theorem bind {k : α → Prog β} {a : α} {r : Except Fault β} (hp : p.ComputesIn S n (.ok a))
    (hk : (k a).ComputesIn S n r) : (p >>= k).ComputesIn S n r :=
  hp.answersIn.bind fun _ ha => ha ▸ hk

/-- A fault ends what would come after it. -/
theorem fault {k : α → Prog β} {e : Fault} (hp : p.ComputesIn S n (.error e)) :
    (p >>= k).ComputesIn S n (.error e) := by
  intro b w hb hw
  obtain ⟨w', hrun, hmay⟩ := hp b w hb hw
  refine ⟨w', ?_, hmay⟩
  rw [run_bind, hrun]
  rfl

theorem bounded {next : Nat → Prog α} (h : ∀ b, n ≤ b → (next b).ComputesIn S n r) :
    (Prog.bounded next).ComputesIn S n r :=
  fun b w hb hw => h b hb b w hb hw

theorem inside (s : Scope) (hp : p.ComputesIn S n r) : (Prog.inside s p).ComputesIn S n r := by
  intro b w hb hw
  obtain ⟨w', hrun, hmay⟩ := hp b (w.entering s) hb (S.entering s hw)
  refine ⟨w'.leaving s w.toFrame, ?_, S.within hmay⟩
  rw [run_inside, hrun]
  rfl

theorem holding (h : Holding) (hp : p.ComputesIn S n r) : (Prog.holding h p).ComputesIn S n r :=
  hp.inside _

end ComputesIn

namespace Computes

variable {p q : Prog α} {r : Except Fault α}

theorem done (r : Except Fault α) : (Prog.done r).Computes S r := ⟨0, ComputesIn.done r⟩

theorem pure (a : α) : (Pure.pure a : Prog α).Computes S (.ok a) := done (.ok a)

theorem bind {k : α → Prog β} {a : α} {r : Except Fault β} (hp : p.Computes S (.ok a))
    (hk : (k a).Computes S r) : (p >>= k).Computes S r := by
  obtain ⟨n, hp⟩ := hp
  obtain ⟨m, hk⟩ := hk
  have hp : p.ComputesIn S (max n m) (.ok a) := ComputesIn.mono hp (by omega)
  exact ⟨_, hp.bind (ComputesIn.mono hk (by omega))⟩

/-- A fault ends what would come after it. -/
theorem fault {k : α → Prog β} {e : Fault} (hp : p.Computes S (.error e)) :
    (p >>= k).Computes S (.error e) := by
  obtain ⟨n, hp⟩ := hp
  exact ⟨n, ComputesIn.fault hp⟩

theorem inside (s : Scope) (hp : p.Computes S r) : (Prog.inside s p).Computes S r := by
  obtain ⟨n, hp⟩ := hp
  exact ⟨n, ComputesIn.inside s hp⟩

theorem holding (h : Holding) (hp : p.Computes S r) : (Prog.holding h p).Computes S r :=
  hp.inside _

theorem same (hp : p.Computes S r) (h : p.Same q) : q.Computes S r := by
  obtain ⟨n, hp⟩ := hp
  refine ⟨n, fun b w hb hw => ?_⟩
  obtain ⟨w', hrun, hmay⟩ := hp b w hb hw
  have hsame := h S.catalog b w
  rw [hrun] at hsame
  generalize q.run S.catalog b w = o at hsame
  cases hsame with
  | finished _ hw' => exact ⟨_, rfl, S.trans hmay (S.quiet (.of_alike hw') hw'.toFrame_eq)⟩

theorem alike (hp : p.Computes S r) (h : p.Alike q) : q.Computes S r := hp.same h.same

theorem of_alike_done (h : p.Alike (.done r)) : p.Computes S r := (done r).alike h.symm

end Computes

/-! ## Running once -/

/-- With enough calls to spend, from a world in which `host` is in use, the program `p` runs `q`
once and does nothing else that anybody notices: it halts as `q` does, and where `q` ends with `r`
it ends with the result that `R` relates to `r`. While `q` runs, `x` is installed, if there is
one, and what was installed before is so again afterwards. -/
def Once (c : Catalog) (host : DefId) (x : Option DefId) (p : Prog α) (q : Prog β)
    (R : Except Fault β → Except Fault α → Prop) : Prop :=
  ∃ n, ∀ b w, n ≤ b → w.Uses host →
    ∃ w₁, w.Quiet w₁ ∧ w₁.ambient = x.or w.ambient ∧ w₁.Uses host ∧
      (∀ h, q.run c b w₁ = .halted h → p.run c b w = .halted h) ∧
      ∀ r w₂ r', q.run c b w₁ = .finished r w₂ → R r r' →
        ∃ w₃, p.run c b w = .finished r' w₃ ∧ w₂.Quiet w₃ ∧
          w₃.ambient = if x.isSome then w.ambient else w₂.ambient

namespace Once

variable {γ : Type} {c : Catalog} {host : DefId} {x : Option DefId} {p p' : Prog α} {q : Prog β}
  {R R' : Except Fault β → Except Fault α → Prop}

theorem refl (p : Prog α) : p.Once c host none p (· = ·) := by
  refine ⟨0, fun b w _ hw => ⟨w, .refl w, rfl, hw, fun _ h => h, ?_⟩⟩
  rintro r w₂ _ hrun rfl
  exact ⟨w₂, hrun, .refl w₂, rfl⟩

theorem mono (h : p.Once c host x q R) (hR : ∀ r r', R' r r' → R r r') :
    p.Once c host x q R' := by
  obtain ⟨n, h⟩ := h
  refine ⟨n, fun b w hb hw => ?_⟩
  obtain ⟨w₁, hw₁, hambient, huses, hhalted, hfinished⟩ := h b w hb hw
  exact ⟨w₁, hw₁, hambient, huses, hhalted, fun r w₂ r' hrun hr =>
    hfinished r w₂ r' hrun (hR r r' hr)⟩

theorem same (h : p.Once c host x q R) (hp : p.Same p') : p'.Once c host x q R := by
  obtain ⟨n, h⟩ := h
  refine ⟨n, fun b w hb hw => ?_⟩
  obtain ⟨w₁, hw₁, hambient, huses, hhalted, hfinished⟩ := h b w hb hw
  refine ⟨w₁, hw₁, hambient, huses, fun k hk => ?_, fun r w₂ r' hrun hr => ?_⟩
  · have hsame := hp c b w
    rw [hhalted k hk] at hsame
    generalize p'.run c b w = o at hsame
    cases hsame
    rfl
  · obtain ⟨w₃, hrun', hw₃, hambient₃⟩ := hfinished r w₂ r' hrun hr
    have hsame := hp c b w
    rw [hrun'] at hsame
    generalize p'.run c b w = o at hsame
    cases hsame with
    | finished _ hw =>
      have hambient := congrArg Frame.ambient hw.toFrame_eq
      exact ⟨_, rfl, hw₃.trans (.of_alike hw), hambient.trans hambient₃⟩

theorem alike (h : p.Once c host x q R) (hp : p.Alike p') : p'.Once c host x q R :=
  h.same hp.same

theorem holding (g : Holding) (h : p.Once c host x q R) :
    (Prog.holding g p).Once c host x q R := by
  obtain ⟨n, h⟩ := h
  refine ⟨n, fun b w hb hw => ?_⟩
  obtain ⟨w₁, hw₁, hambient, huses, hhalted, hfinished⟩ :=
    h b (w.entering (.holding g)) hb (hw.entering _)
  refine ⟨w₁, (World.Quiet.entering w _).trans hw₁, hambient, huses, fun k hk => ?_,
    fun r w₂ r' hrun hr => ?_⟩
  · rw [Prog.holding, run_inside, hhalted k hk]
    rfl
  · obtain ⟨w₃, hrun', hw₃, hambient₃⟩ := hfinished r w₂ r' hrun hr
    refine ⟨w₃.leaving (.holding g) w.toFrame, ?_, hw₃.trans (.leaving w₃ _ _), hambient₃⟩
    rw [Prog.holding, run_inside, hrun']
    rfl

/-- What runs `q` once, which runs `s` once, runs `s` once. -/
theorem trans {s : Prog γ} {Q : Except Fault γ → Except Fault β → Prop}
    (h : p.Once c host none q R) (h' : q.Once c host x s Q) :
    p.Once c host x s fun r r'' => ∃ r', Q r r' ∧ R r' r'' := by
  obtain ⟨n, h⟩ := h
  obtain ⟨m, h'⟩ := h'
  refine ⟨max n m, fun b w hb hw => ?_⟩
  obtain ⟨w₁, hw₁, hambient₁, huses₁, hhalted, hfinished⟩ := h b w (by omega) hw
  obtain ⟨w₂, hw₂, hambient₂, huses₂, hhalted', hfinished'⟩ := h' b w₁ (by omega) huses₁
  have hsame : w₁.ambient = w.ambient := hambient₁.trans (Option.none_or ..)
  refine ⟨w₂, hw₁.trans hw₂, hsame ▸ hambient₂, huses₂,
    fun k hk => hhalted k (hhalted' k hk), ?_⟩
  rintro r w₃ r'' hrun ⟨r', hr, hr'⟩
  obtain ⟨w₄, hrun₄, hw₄, hambient₄⟩ := hfinished' r w₃ r' hrun hr
  obtain ⟨w₅, hrun₅, hw₅, hambient₅⟩ := hfinished r' w₄ r'' hrun₄ hr'
  refine ⟨w₅, hrun₅, hw₄.trans hw₅, ?_⟩
  rw [hambient₅, if_neg (by simp), hambient₄, hsame]

/-- What comes after the program is a result at hand. -/
theorem bind {k : α → Prog γ} {Q : Except Fault β → Except Fault γ → Prop}
    (h : p.Once c host x q R)
    (hQ : ∀ r r'', Q r r'' → ∃ r', R r r' ∧ (∀ e, r' = .error e → r'' = .error e) ∧
      ∀ a, r' = .ok a → (k a).Alike (.done r'')) : (p >>= k).Once c host x q Q := by
  obtain ⟨n, h⟩ := h
  refine ⟨n, fun b w hb hw => ?_⟩
  obtain ⟨w₁, hw₁, hambient, huses, hhalted, hfinished⟩ := h b w hb hw
  refine ⟨w₁, hw₁, hambient, huses, fun g hg => ?_, fun r w₂ r'' hrun hr => ?_⟩
  · rw [run_bind, hhalted g hg]
    rfl
  · obtain ⟨r', hr, herror, hok⟩ := hQ r r'' hr
    obtain ⟨w₃, hrun', hw₃, hambient₃⟩ := hfinished r w₂ r' hrun hr
    rw [run_bind, hrun']
    cases r' with
    | error e => exact ⟨w₃, by rw [herror e rfl]; rfl, hw₃, hambient₃⟩
    | ok a =>
      have hk : ((k a).run c b w₃).Alike (.finished r'' w₃) := (hok a rfl).run c b (.refl w₃)
      change ∃ w₄, (k a).run c b w₃ = _ ∧ _
      generalize (k a).run c b w₃ = o at hk
      cases hk with
      | finished _ hw =>
        have hambient := congrArg Frame.ambient hw.toFrame_eq
        exact ⟨_, rfl, hw₃.trans (.of_alike hw.symm), hambient.symm.trans hambient₃⟩

/-! ### Translated answers -/

/-- Faults are the same; where one program answers `g n`, the other one answers `h n`. -/
inductive Translates (E : Value → Prop) (g h : Value → Value) :
    Except Fault Value → Except Fault Value → Prop where
  | fault (e : Fault) : Translates E g h (.error e) (.error e)
  | answer {n : Value} (hn : E n) : Translates E g h (.ok (g n)) (.ok (h n))

section

variable {E : Value → Prop} {g h k : Value → Value} {p q s : Prog Value}

theorem answering (hp : p.Once c host x q (· = ·)) : p.Once c host x q (Translates E g g) := by
  refine hp.mono fun r r' hr => ?_
  cases hr <;> rfl

/-- What comes after the program turns its answers into others at once. -/
theorem translate {f : Value → Prog Value} (hp : p.Once c host x q (Translates E g h))
    (hf : ∀ n, E n → (f (h n)).Alike (Pure.pure (k n))) :
    (p >>= f).Once c host x q (Translates E g k) := by
  refine hp.bind fun r r'' hr => ?_
  cases hr with
  | fault e => exact ⟨.error e, .fault e, fun _ he => he.symm ▸ rfl, nofun⟩
  | answer hn =>
    refine ⟨.ok (h _), .answer hn, nofun, fun a ha => ?_⟩
    obtain rfl := Except.ok.inj ha
    exact hf _ hn

theorem translating (hp : p.Once c host none q (Translates E h k))
    (hq : q.Once c host x s (Translates E g h)) : p.Once c host x s (Translates E g k) := by
  refine (hp.trans hq).mono fun r r'' hr => ?_
  cases hr with
  | fault e => exact ⟨_, .fault e, .fault e⟩
  | answer hn => exact ⟨_, .answer hn, .answer hn⟩

end

/-- What runs a result at hand once computes. -/
theorem computes {r : Except Fault β} {r' : Except Fault α} (h : p.Once c host none q R)
    (hq : q.Alike (.done r)) (hr : R r r') : p.Computes (.silent c host) r' := by
  obtain ⟨n, h⟩ := h
  refine ⟨n, fun b w hb hw => ?_⟩
  obtain ⟨w₁, hw₁, hambient₁, huses₁, -, hfinished⟩ := h b w hb hw
  have hrun : (q.run c b w₁).Alike (.finished r w₁) := hq.run c b (.refl w₁)
  generalize ho : q.run c b w₁ = o at hrun
  cases hrun with
  | finished _ hw₂ =>
    obtain ⟨w₃, hrun₃, hw₃, hambient₃⟩ := hfinished r _ r' ho hr
    obtain ⟨hheld, hsaved⟩ := held_of_run p hrun₃
    refine ⟨w₃, hrun₃, hw₁.trans (.trans (.of_alike hw₂.symm) hw₃), ?_⟩
    have hambient : w₃.ambient = w.ambient := by
      rw [hambient₃, if_neg (by simp), ← congrArg Frame.ambient hw₂.toFrame_eq, hambient₁,
        Option.none_or]
    cases hframe : w.toFrame
    cases hframe' : w₃.toFrame
    simp_all

end Once

/-! ## Running once and going on -/

/-- With enough calls to spend, from a world in which `host` is in use, the program `p` runs `q`
once, while `x` is installed, if there is one. It halts and faults as `q` does, and goes on as `k`
does with what `q` answers. Nobody notices anything between or afterwards; with no `x`, nothing
else is installed either. -/
def OnceThen (c : Catalog) (host : DefId) (E : Value → Prop) (x : Option DefId) (p q : Prog Value)
    (k : Value → Prog Value) : Prop :=
  ∃ n, ∀ b w, n ≤ b → w.Uses host →
    ∃ w₁, w.Quiet w₁ ∧ w₁.ambient = x.or w.ambient ∧ w₁.Uses host ∧
      (∀ h, q.run c b w₁ = .halted h → p.run c b w = .halted h) ∧
      (∀ e w₂, q.run c b w₁ = .finished (.error e) w₂ →
        ∃ w₃, p.run c b w = .finished (.error e) w₃ ∧ w₂.Quiet w₃ ∧
          (x = none → w₃.ambient = w₂.ambient)) ∧
      ∀ a w₂, E a → q.run c b w₁ = .finished (.ok a) w₂ →
        ∃ w₃, w₂.Quiet w₃ ∧ (x = none → w₃.ambient = w₂.ambient) ∧
          (∀ h, (k a).run c b w₃ = .halted h → p.run c b w = .halted h) ∧
          ∀ r r' w₄, (k a).run c b w₃ = .finished r w₄ →
            Once.Translates E (fun n => n) (fun n => n) r r' →
            ∃ w₅, p.run c b w = .finished r' w₅ ∧ w₄.Quiet w₅ ∧
              (x = none → w₅.ambient = w₄.ambient)

namespace Once

variable {c : Catalog} {host : DefId} {E : Value → Prop} {x : Option DefId} {p q : Prog Value}
  {k : Value → Prog Value}

/-- What goes on after a program that runs another one once. -/
theorem onceThen (h : p.Once c host x q (Translates E (fun n => n) fun n => n))
    (k : Value → Prog Value) : (p >>= k).OnceThen c host E x q k := by
  obtain ⟨n, h⟩ := h
  refine ⟨n, fun b w hb hw => ?_⟩
  obtain ⟨w₁, hw₁, hambient, huses, hhalted, hfinished⟩ := h b w hb hw
  refine ⟨w₁, hw₁, hambient, huses, fun g hg => ?_, fun e w₂ hrun => ?_, fun a w₂ ha hrun => ?_⟩
  · rw [run_bind, hhalted g hg]
    rfl
  · obtain ⟨w₃, hrun', hw₃, hambient₃⟩ := hfinished _ w₂ _ hrun (.fault e)
    refine ⟨w₃, ?_, hw₃, ?_⟩
    · rw [run_bind, hrun']
      rfl
    · rintro rfl
      exact hambient₃
  · obtain ⟨w₃, hrun', hw₃, hambient₃⟩ := hfinished _ w₂ _ hrun (.answer ha)
    have hgo : (p >>= k).run c b w = (k a).run c b w₃ := by
      rw [run_bind, hrun']
      rfl
    refine ⟨w₃, hw₃, ?_, fun g hg => hgo.trans hg, fun r r' w₄ hk hr => ?_⟩
    · rintro rfl
      exact hambient₃
    · cases hr <;> exact ⟨w₄, hgo.trans hk, .refl w₄, fun _ => rfl⟩

/-- What runs once a program that goes on after another one. -/
theorem onceThen_of_bind (h : p.Once c host x (q >>= k) (Translates E (fun n => n) fun n => n)) :
    p.OnceThen c host E x q k := by
  obtain ⟨n, h⟩ := h
  refine ⟨n, fun b w hb hw => ?_⟩
  obtain ⟨w₁, hw₁, hambient, huses, hhalted, hfinished⟩ := h b w hb hw
  have hgo := run_bind c b q k w₁
  refine ⟨w₁, hw₁, hambient, huses, fun g hg => ?_, fun e w₂ hrun => ?_, fun a w₂ ha hrun => ?_⟩
  · rw [hg] at hgo
    exact hhalted g hgo
  · rw [hrun] at hgo
    obtain ⟨w₃, hrun', hw₃, hambient₃⟩ := hfinished _ w₂ _ hgo (.fault e)
    refine ⟨w₃, hrun', hw₃, ?_⟩
    rintro rfl
    exact hambient₃
  · rw [hrun] at hgo
    refine ⟨w₂, .refl w₂, fun _ => rfl, fun g hg => hhalted g (hgo.trans hg),
      fun r r' w₄ hk hr => ?_⟩
    obtain ⟨w₅, hrun', hw₅, hambient₅⟩ := hfinished r w₄ r' (hgo.trans hk) hr
    refine ⟨w₅, hrun', hw₅, ?_⟩
    rintro rfl
    exact hambient₅

end Once

end Prog

end EffectLayers
