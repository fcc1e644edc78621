import EffectLayers.Proofs.Program.Computes

/-!
# Programs of two sessions

Two sessions in which some definitions stand for each other may differ in the names and numbers of
those, and in what else they keep in use. Programs that ask of definitions that stand for each other
only whether one is installed, what it answers, and whether it is alive, and that hold whatever they
like, end alike in both: with the same result, or the same fault up to names, and with the same log.
A definition that they ask about has to be kept by something else meanwhile, for what they hold
themselves differs.

## Main definitions

* `Pairing`: two catalogs, and which definitions stand for each other.
* `Fault.Renamed`, `Ended`: faults that differ in the name of a definition, and ends up to that.
* `Prog.Paired`: programs that do the same up to that.
* `World.Keeps`: a world in which definitions are kept.
* `World.Paired`, `Outcome.Paired`: worlds and outcomes in which the same was made.

## Main statements

* `Prog.Paired.bind`, `Prog.Paired.holding_left` and the like: one rule for every way of making
  programs.
* `Prog.Paired.run`: paired programs run alike.
-/

namespace EffectLayers

variable {α β γ : Type}

/-- The definitions of two catalogs that stand for each other. All of them are kept, by a name that
is not forgotten or by what is held where a program starts. -/
structure Pairing : Type 1 where
  left : Catalog
  right : Catalog
  pairs : DefId → DefId → Prop
  /-- The names that are not forgotten, with what they refer to on both sides. -/
  named : String → DefId → DefId → Prop

/-- Faults that differ at most in the name of a definition. -/
inductive Fault.Renamed : Fault → Fault → Prop where
  | refl (e : Fault) : Renamed e e
  | notImplemented (op : Operation) (name name' : String) :
      Renamed (.notImplemented op name) (.notImplemented op name')
  | detached (name name' : String) : Renamed (.detached name) (.detached name')

/-- The same result, or faults that differ at most in a name. -/
inductive Ended : Except Fault α → Except Fault α → Prop where
  | ok (a : α) : Ended (.ok a) (.ok a)
  | error {e e' : Fault} (h : e.Renamed e') : Ended (.error e) (.error e')

theorem Ended.refl (r : Except Fault α) : Ended r r := by
  cases r with
  | ok a => exact .ok a
  | error e => exact .error (.refl e)

/-- Requests that are not about definitions: their answers are the same in both sessions. -/
def Query.plain : Query → Bool
  | freshScope | freshIdentity | log _ | sequence .. | item .. | brand _ => true
  | _ => false

/-- Programs that do the same up to which definitions they ask about, of those that stand for each
other, and up to what they hold. -/
inductive Prog.Paired (P : Pairing) : {α : Type} → Prog α → Prog α → Prop where
  | done {α : Type} {r r' : Except Fault α} (h : Ended r r') : Paired P (.done r) (.done r')
  | halt {α : Type} (h : Halt) : Paired P (.halt h : Prog α) (.halt h)
  | bounded {α : Type} {f g : Nat → Prog α} (h : ∀ n, Paired P (f n) (g n)) :
      Paired P (.bounded f) (.bounded g)
  | ask {α : Type} {q : Query} (hq : q.plain = true) {f g : q.Answer → Prog α}
      (h : ∀ a, Paired P (f a) (g a)) : Paired P (.ask q f) (.ask q g)
  | current {α : Type} {f g : Option DefId → Prog α}
      (h : ∀ x y, Option.Rel P.pairs x y → Paired P (f x) (g y)) :
      Paired P (.ask .current f) (.ask .current g)
  | install {α : Type} {x y : Option DefId} (hxy : Option.Rel P.pairs x y)
      {f g : Option DefId → Prog α} (h : ∀ x y, Option.Rel P.pairs x y → Paired P (f x) (g y)) :
      Paired P (.ask (.install x) f) (.ask (.install y) g)
  | definition {α : Type} {name : String} {x y : DefId} (hname : P.named name x y)
      {f g : Option DefId → Prog α} (h : Paired P (f (some x)) (g (some y))) :
      Paired P (.ask (.definition name) f) (.ask (.definition name) g)
  | forget {α : Type} {name : String} (hname : ∀ x y, ¬ P.named name x y) {f g : Bool → Prog α}
      (h : ∀ a, Paired P (f a) (g a)) : Paired P (.ask (.forget name) f) (.ask (.forget name) g)
  /-- A definition that is kept is alive. -/
  | alive {α : Type} {x y : DefId} (hxy : P.pairs x y) {f g : Bool → Prog α}
      (h : Paired P (f true) (g true)) : Paired P (.ask (.alive x) f) (.ask (.alive y) g)
  /-- What is asked of the catalogs alone is answered by them. -/
  | known {α : Type} {q q' : Query} {a : q.Answer} {a' : q'.Answer}
      (hq : ∀ w, q.answer P.left w = (a, w)) (hq' : ∀ w, q'.answer P.right w = (a', w))
      {f : q.Answer → Prog α} {g : q'.Answer → Prog α} (h : Paired P (f a) (g a')) :
      Paired P (.ask q f) (.ask q' g)
  | function {α : Type} {holds holds' : Holding} {code code' : Value → Prog Value}
      {f g : FuncId → Prog α} (hcode : ∀ v, Paired P (code v) (code' v))
      (h : ∀ id, Paired P (f id) (g id)) :
      Paired P (.function holds code f) (.function holds' code' g)
  | call {α : Type} (f : FuncId) (arg : Value) {k l : Except Fault Value → Prog α}
      (h : ∀ r r', Ended r r' → Paired P (k r) (l r')) :
      Paired P (.call f arg k) (.call f arg l)
  | invoke {α : Type} {x y : DefId} {d e : Definition} (hd : P.left.get? x = some d)
      (he : P.right.get? y = some e) (r : Request) (args : List Value)
      (hanswer : Paired P (d.table.answer r args) (e.table.answer r args))
      {k l : Except Fault Value → Prog α} (h : ∀ r r', Ended r r' → Paired P (k r) (l r')) :
      Paired P (.invoke x r args k) (.invoke y r args l)
  | holding {α β : Type} (g g' : Holding) {p q : Prog β} (hp : Paired P p q)
      {k l : Except Fault β → Prog α} (h : ∀ r r', Ended r r' → Paired P (k r) (l r')) :
      Paired P (.within (.holding g) p k) (.within (.holding g') q l)
  | installed {α β : Type} {x y : DefId} (hxy : P.pairs x y) {p q : Prog β} (hp : Paired P p q)
      {k l : Except Fault β → Prog α} (h : ∀ r r', Ended r r' → Paired P (k r) (l r')) :
      Paired P (.within (.installed x) p k) (.within (.installed y) q l)
  /-- What is held in one session alone is of no concern. -/
  | left {α β : Type} (g : Holding) {p q : Prog β} (hp : Paired P p q)
      {k l : Except Fault β → Prog α} (h : ∀ r r', Ended r r' → Paired P (k r) (l r')) :
      Paired P (.within (.holding g) p k) (q.outcome.bind l)
  | right {α β : Type} (g : Holding) {p q : Prog β} (hp : Paired P p q)
      {k l : Except Fault β → Prog α} (h : ∀ r r', Ended r r' → Paired P (k r) (l r')) :
      Paired P (p.outcome.bind k) (.within (.holding g) q l)

/-- Closures of one value whose programs are paired, whatever they hold. -/
def Closure.Paired (P : Pairing) (f g : Closure (Value → Prog β)) : Prop :=
  ∀ v, (f.code v).Paired P (g.code v)

namespace Prog

/-! ## Outcomes of programs -/

/-- Going on with the result is going on with the outcome, if that is one. -/
theorem outcome_bind (p : Prog α) (f : α → Prog β) :
    (p.outcome.bind fun r => (done r).bind f) = p.bind f := by
  induction p with
  | done => rfl
  | halt => rfl
  | bounded _ ih => simp only [outcome, bind, ih]
  | ask _ _ ih => simp only [outcome, bind, ih]
  | function _ _ _ _ ih => simp only [outcome, bind, ih]
  | call _ _ _ ih => simp only [outcome, bind, ih]
  | invoke _ _ _ _ ih => simp only [outcome, bind, ih]
  | within _ _ _ _ ih => simp only [outcome, bind, ih]

theorem run_outcome_bind (p : Prog α) (k : Except Fault α → Prog β) (c : Catalog) (b : Nat)
    (w : World) :
    (p.outcome.bind k).run c b w = (p.run c b w).onward fun r w' => (k r).run c b w' := by
  induction p generalizing w with
  | done => rfl
  | halt => rfl
  | bounded _ ih => exact ih b k w
  | ask q _ ih => exact ih _ k _
  | function h code _ _ ih => exact ih _ k _
  | call f arg next ih =>
    cases hf : w.functions[f]? with
    | none => rw [outcome, bind, run_call_none c b w arg _ hf, run_call_none c b w arg _ hf]; rfl
    | some found =>
      cases b with
      | zero => rw [outcome, bind, run_call_zero c w arg _ hf, run_call_zero c w arg _ hf]; rfl
      | succ b =>
        rw [outcome, bind, run_call c b w arg _ hf, run_call c b w arg _ hf]
        cases (found.code arg).run c b _ with
        | halted => rfl
        | finished r w' => exact ih r k _
  | invoke d r args next ih =>
    cases hd : c.get? d with
    | none =>
      rw [outcome, bind, run_invoke_none c b w r args _ hd, run_invoke_none c b w r args _ hd]; rfl
    | some definition =>
      cases b with
      | zero =>
        rw [outcome, bind, run_invoke_zero c w r args _ hd, run_invoke_zero c w r args _ hd]; rfl
      | succ b =>
        rw [outcome, bind, run_invoke c b w r args _ hd, run_invoke c b w r args _ hd]
        cases (definition.table.answer r args).run c b _ with
        | halted => rfl
        | finished r w' => exact ih r k _
  | within s body next _ ih =>
    rw [outcome, bind, run_within, run_within]
    cases body.run c b _ with
    | halted => rfl
    | finished r w' => exact ih r k _

/-- Going on with the outcome as it is. -/
theorem outcome_bind_done (p : Prog α) : p.outcome.bind done = p := by
  have hdone : (done : Except Fault α → Prog α) = fun r => (done r).bind fun a => done (.ok a) := by
    funext r
    exact (bind_done_ok (done r)).symm
  rw [hdone, outcome_bind, bind_done_ok]

namespace Paired

variable {P : Pairing} {p q : Prog α}

/-! ## One rule for every way of making programs -/

theorem pure (a : α) : (Pure.pure a : Prog α).Paired P (Pure.pure a) := done (.ok a)

theorem throw (e : Fault) : (MonadExcept.throw e : Prog α).Paired P (MonadExcept.throw e) :=
  done (.refl _)

/-- What a session holds alone in front of a program is of no concern. -/
theorem holding_left (g : Holding) (h : p.Paired P q) : (Prog.holding g p).Paired P q := by
  have hleft : (within (.holding g) p Prog.done).Paired P (q.outcome.bind Prog.done) :=
    left g h fun _ _ h => done h
  rwa [outcome_bind_done] at hleft

theorem holding_right (g : Holding) (h : p.Paired P q) : p.Paired P (Prog.holding g q) := by
  have hright : (p.outcome.bind Prog.done).Paired P (within (.holding g) q Prog.done) :=
    right g h fun _ _ h => done h
  rwa [outcome_bind_done] at hright

theorem bind {f g : α → Prog β} (h : p.Paired P q) (hf : ∀ a, (f a).Paired P (g a)) :
    (p >>= f).Paired P (q >>= g) := by
  induction h with
  | done h =>
    cases h with
    | ok a => exact hf a
    | error h => exact done (.error h)
  | halt h => exact halt h
  | bounded _ ih => exact bounded fun n => ih n hf
  | ask hq _ ih => exact ask hq fun a => ih a hf
  | current _ ih => exact current fun x y h => ih x y h hf
  | install hxy _ ih => exact install hxy fun x y h => ih x y h hf
  | definition hname _ ih => exact definition hname (ih hf)
  | forget hname _ ih => exact forget hname fun a => ih a hf
  | alive hxy _ ih => exact alive hxy (ih hf)
  | known hq hq' _ ih => exact known hq hq' (ih hf)
  | function hcode _ _ ih => exact function hcode fun id => ih id hf
  | call id arg _ ih => exact call id arg fun r r' h => ih r r' h hf
  | invoke hd he r args hanswer _ _ ih =>
    exact invoke hd he r args hanswer fun r r' h => ih r r' h hf
  | holding held held' hp _ _ ih => exact holding held held' hp fun r r' h => ih r r' h hf
  | installed hxy hp _ _ ih => exact installed hxy hp fun r r' h => ih r r' h hf
  | left held hp _ _ ih =>
    rw [bind_def, bind_def, bind_bind]
    exact left held hp fun r r' h => ih r r' h hf
  | right held hp _ _ ih =>
    rw [bind_def, bind_def, bind_bind]
    exact right held hp fun r r' h => ih r r' h hf

end Paired

end Prog

theorem Closure.Paired.call {P : Pairing} {f g : Closure (Value → Prog β)} (h : f.Paired P g)
    (v : Value) : (f.call v).Paired P (g.call v) :=
  .holding _ _ (h v) fun _ _ h => .done h

/-! ## Worlds -/

/-- To forget a name leaves every other one. -/
theorem World.lookup_forget (w : World) {n name : String} (h : n ≠ name) :
    (w.forget name).2.names.lookup n = w.names.lookup n := by
  simp only [forget]
  induction w.names with
  | nil => rfl
  | cons entry names ih =>
    obtain ⟨m, d⟩ := entry
    by_cases hm : m = name
    · have hn : (n == m) = false := beq_false_of_ne fun heq => h (heq.trans hm)
      simp only [hm, List.filter_cons, bne_self_eq_false, List.lookup_cons]
      rw [← hm, hn]
      simpa [hm] using ih
    · simp only [List.filter_cons, bne_iff_ne.mpr hm, if_true, List.lookup_cons, ih]

/-- Whether there is a name after one was forgotten. -/
theorem World.any_names_forget (w : World) (n name : String) :
    (w.forget name).2.names.any (·.1 == n) = (w.names.any (·.1 == n) && n != name) := by
  simp only [forget]
  induction w.names with
  | nil => rfl
  | cons entry names ih =>
    obtain ⟨m, d⟩ := entry
    by_cases hm : m = name
    · simp [hm, ih]
      grind
    · simp [bne_iff_ne.mpr hm, ih]
      grind

/-- A world in which names refer to definitions, and definitions are kept: what is named so, or is
in use, is layered on them. -/
structure World.Keeps (c : Catalog) (named : String → DefId → Prop) (kept : DefId → Prop)
    (w : World) : Prop where
  names : ∀ n x, named n x → w.names.lookup n = some x
  uses : ∀ x, kept x → ∃ root, ((∃ n, named n root) ∨ w.Uses root) ∧ x ∈ c.lineage root

namespace World.Keeps

variable {c : Catalog} {named : String → DefId → Prop} {kept : DefId → Prop} {w w₁ : World}

/-- What is kept is alive. -/
theorem alive (h : w.Keeps c named kept) {x : DefId} (hx : kept x) : w.alive c x = true := by
  obtain ⟨root, hroot, hmem⟩ := h.uses x hx
  refine (World.alive_iff c w x).mpr ⟨root, .inl ?_, hmem⟩
  rcases hroot with ⟨n, hn⟩ | ⟨g, hg, hd⟩
  · obtain ⟨l₁, l₂, hnames, -⟩ := List.lookup_eq_some_iff.mp (h.names n root hn)
    have hmem : (n, root) ∈ w.names := by simp [hnames]
    simp only [World.roots, List.append_assoc]
    exact List.mem_append_left _ (List.mem_map_of_mem hmem)
  · exact List.mem_append_right _ (List.mem_flatMap.mpr ⟨g, hg, hd⟩)

/-- Only names and what is in use matter. -/
theorem congr (h : w.Keeps c named kept) (hnames : w₁.names = w.names) (hheld : w₁.held = w.held) :
    w₁.Keeps c named kept where
  names n x hn := hnames ▸ h.names n x hn
  uses x hx := by
    obtain ⟨root, hroot, hmem⟩ := h.uses x hx
    exact ⟨root, hroot.imp_right fun huses => by rwa [World.Uses, hheld], hmem⟩

theorem entering (h : w.Keeps c named kept) (s : Scope) : (w.entering s).Keeps c named kept where
  names := h.names
  uses x hx := by
    obtain ⟨root, hroot, hmem⟩ := h.uses x hx
    exact ⟨root, hroot.imp_right fun huses => huses.entering s, hmem⟩

/-- After a scope, names are as at its end and what is in use is as before it. -/
theorem leaving (h : w.Keeps c named kept) (h₁ : w₁.Keeps c named kept) (s : Scope) :
    (w₁.leaving s w.toFrame).Keeps c named kept where
  names := h₁.names
  uses x hx := by
    obtain ⟨root, hroot, hmem⟩ := h.uses x hx
    refine ⟨root, hroot.imp_right fun huses => ?_, hmem⟩
    cases s <;> exact huses

theorem forget (h : w.Keeps c named kept) {name : String} (hname : ∀ x, ¬ named name x) :
    (w.forget name).2.Keeps c named kept where
  names n x hn := by
    have hne : n ≠ name := fun heq => hname x (heq ▸ hn)
    rw [w.lookup_forget hne, h.names n x hn]
  uses := h.uses

end World.Keeps

/-- Worlds of two sessions in which the same was made, and in which every definition that stands for
another one is kept. -/
structure World.Paired (P : Pairing) (w w' : World) : Prop where
  left : w.Keeps P.left (fun n x => ∃ y, P.named n x y) fun x => ∃ y, P.pairs x y
  right : w'.Keeps P.right (fun n y => ∃ x, P.named n x y) fun y => ∃ x, P.pairs x y
  ambient : Option.Rel P.pairs w.ambient w'.ambient
  listed : ∀ n, w'.names.any (·.1 == n) = w.names.any (·.1 == n)
  brands : w'.brands = w.brands
  log : w'.log = w.log
  nextScope : w'.nextScope = w.nextScope
  nextIdentity : w'.nextIdentity = w.nextIdentity
  sequences : w'.sequences = w.sequences
  size : w'.functions.size = w.functions.size
  functions : ∀ (i : FuncId) f g, w.functions[i]? = some f → w'.functions[i]? = some g →
    Closure.Paired P f g

/-- Outcomes that are the same up to a name in a fault, and the worlds. -/
inductive Outcome.Paired (P : Pairing) : Outcome α → Outcome α → Prop where
  | halted (h : Halt) : Paired P (.halted h) (.halted h)
  | finished {r r' : Except Fault α} {w w' : World} (hr : Ended r r') (hw : w.Paired P w') :
      Paired P (.finished r w) (.finished r' w')

namespace World.Paired

variable {P : Pairing} {w w' u u' : World}

theorem entering_left (h : w.Paired P w') (g : Holding) : (w.entering (.holding g)).Paired P w' :=
  { h with left := h.left.entering _ }

theorem entering_right (h : w.Paired P w') (g : Holding) : w.Paired P (w'.entering (.holding g)) :=
  { h with right := h.right.entering _ }

theorem entering_installed (h : w.Paired P w') {x y : DefId} (hxy : P.pairs x y) :
    (w.entering (.installed x)).Paired P (w'.entering (.installed y)) :=
  { h with
    left := h.left.entering _
    right := h.right.entering _
    ambient := .some hxy }

theorem leaving_left (h : w.Paired P w') (hu : u.Paired P u') (g : Holding) :
    (u.leaving (.holding g) w.toFrame).Paired P u' :=
  { hu with left := h.left.leaving hu.left _ }

theorem leaving_right (h : w.Paired P w') (hu : u.Paired P u') (g : Holding) :
    u.Paired P (u'.leaving (.holding g) w'.toFrame) :=
  { hu with right := h.right.leaving hu.right _ }

theorem leaving_installed (h : w.Paired P w') (hu : u.Paired P u') (x y : DefId) :
    (u.leaving (.installed x) w.toFrame).Paired P (u'.leaving (.installed y) w'.toFrame) :=
  { hu with
    left := h.left.leaving hu.left _
    right := h.right.leaving hu.right _
    ambient := h.ambient }

/-- Function values that are made next are paired if their code is. -/
theorem push (h : w.Paired P w') {f g : Callback} (hfg : f.Paired P g) :
    World.Paired P { w with functions := w.functions.push f }
      { w' with functions := w'.functions.push g } :=
  { h with
    left := h.left.congr rfl rfl
    right := h.right.congr rfl rfl
    size := by simp [h.size]
    functions := fun i f' g' hf' hg' => by
      simp only [Array.getElem?_push] at hf' hg'
      by_cases hi : i = w.functions.size
      · rw [if_pos hi] at hf'
        rw [if_pos (hi.trans h.size.symm)] at hg'
        exact Option.some.inj hf' ▸ Option.some.inj hg' ▸ hfg
      · rw [if_neg hi] at hf'
        rw [if_neg fun heq => hi (heq.trans h.size)] at hg'
        exact h.functions i f' g' hf' hg' }

/-- Which function value is found is paired. -/
theorem getElem? (h : w.Paired P w') (i : FuncId) :
    (w.functions[i]? = none ∧ w'.functions[i]? = none) ∨
      ∃ f g, w.functions[i]? = some f ∧ w'.functions[i]? = some g ∧ f.Paired P g := by
  by_cases hi : i < w.functions.size
  · have hi' : i < w'.functions.size := h.size ▸ hi
    have hf : w.functions[i]? = some w.functions[i] := Array.getElem?_eq_getElem hi
    have hg : w'.functions[i]? = some w'.functions[i] := Array.getElem?_eq_getElem hi'
    exact .inr ⟨_, _, hf, hg, h.functions i _ _ hf hg⟩
  · have hi := Nat.le_of_not_lt hi
    exact .inl ⟨Array.getElem?_eq_none hi,
      Array.getElem?_eq_none (Nat.le_trans (Nat.le_of_eq h.size) hi)⟩

/-- What is not about definitions is answered alike. -/
theorem answer (h : w.Paired P w') {q : Query} (hq : q.plain = true) :
    (q.answer P.right w').1 = (q.answer P.left w).1 ∧
      (q.answer P.left w).2.Paired P (q.answer P.right w').2 := by
  cases q with
  | freshScope =>
    refine ⟨h.nextScope, { h with left := ?_, right := ?_, nextScope := ?_ }⟩
    · exact h.left.congr rfl rfl
    · exact h.right.congr rfl rfl
    · exact congrArg (· + 1) h.nextScope
  | freshIdentity =>
    refine ⟨h.nextIdentity, { h with left := ?_, right := ?_, nextIdentity := ?_ }⟩
    · exact h.left.congr rfl rfl
    · exact h.right.congr rfl rfl
    · exact congrArg (· + 1) h.nextIdentity
  | log v =>
    refine ⟨rfl, { h with left := ?_, right := ?_, log := ?_ }⟩
    · exact h.left.congr rfl rfl
    · exact h.right.congr rfl rfl
    · exact congrArg (·.push v) h.log
  | sequence items source =>
    refine ⟨congrArg Array.size h.sequences, { h with left := ?_, right := ?_, sequences := ?_ }⟩
    · exact h.left.congr rfl rfl
    · exact h.right.congr rfl rfl
    · exact congrArg (·.push { items := items.toArray, source }) h.sequences
  | item s position =>
    simp only [Query.answer, h.sequences, h.log]
    cases w.sequences[s]? with
    | none => exact ⟨rfl, h⟩
    | some before =>
      refine ⟨rfl, { h with left := ?_, right := ?_, sequences := rfl, log := rfl }⟩
      · exact h.left.congr rfl rfl
      · exact h.right.congr rfl rfl
  | brand name => exact ⟨congrArg (·.lookup name) h.brands, h⟩
  | _ => cases hq

theorem forget (h : w.Paired P w') {name : String} (hname : ∀ x y, ¬ P.named name x y) :
    (w'.forget name).1 = (w.forget name).1 ∧ (w.forget name).2.Paired P (w'.forget name).2 := by
  refine ⟨h.listed name, { h with left := ?_, right := ?_, listed := ?_ }⟩
  · exact h.left.forget fun x ⟨y, hxy⟩ => hname x y hxy
  · exact h.right.forget fun y ⟨x, hxy⟩ => hname x y hxy
  · intro n
    rw [any_names_forget, any_names_forget, h.listed]

end World.Paired

/-- Two definitions that stand for each other, and no others. -/
def Pairing.both (c c' : Catalog) (x y : DefId) : Pairing where
  left := c
  right := c'
  pairs i j := i = x ∧ j = y
  named _ _ _ := False

/-- Where nothing was made and only they are in use. -/
theorem World.Paired.hosting {c c' : Catalog} {x y : DefId} (hx : x ∈ c.lineage x)
    (hy : y ∈ c'.lineage y) : (World.hosting x).Paired (.both c c' x y) (World.hosting y) where
  left := by
    refine ⟨fun n i ⟨_, h⟩ => h.elim, fun i ⟨j, hi, _⟩ => ⟨x, .inr ?_, hi ▸ hx⟩⟩
    exact ⟨_, List.mem_singleton_self _, List.mem_singleton_self _⟩
  right := by
    refine ⟨fun n i ⟨_, h⟩ => h.elim, fun j ⟨i, _, hj⟩ => ⟨y, .inr ?_, hj ▸ hy⟩⟩
    exact ⟨_, List.mem_singleton_self _, List.mem_singleton_self _⟩
  ambient := .none
  listed _ := rfl
  brands := rfl
  log := rfl
  nextScope := rfl
  nextIdentity := rfl
  sequences := rfl
  size := rfl
  functions _ _ _ hf := nomatch hf

/-! ## Runs -/

theorem Outcome.Paired.onward {P : Pairing} {o o' : Outcome α}
    {k l : Except Fault α → World → Outcome β} (h : o.Paired P o')
    (hk : ∀ r r' w w', Ended r r' → w.Paired P w' → (k r w).Paired P (l r' w')) :
    (o.onward k).Paired P (o'.onward l) := by
  cases h with
  | halted h => exact halted h
  | finished hr hw => exact hk _ _ _ _ hr hw

/-- Paired programs run alike. -/
theorem Prog.Paired.run {P : Pairing} {p q : Prog α} (h : p.Paired P q) (b : Nat) {w w' : World}
    (hw : w.Paired P w') : (p.run P.left b w).Paired P (q.run P.right b w') := by
  induction b using Nat.strongRecOn generalizing α w w' with
  | ind b ihb =>
  induction h generalizing w w' with
  | done h => exact .finished h hw
  | halt h => exact .halted h
  | bounded _ ih => exact ih b hw
  | ask hq _ ih =>
    obtain ⟨hanswer, hw'⟩ := hw.answer hq
    rw [run_ask, run_ask, hanswer]
    exact ih _ hw'
  | current _ ih => exact ih _ _ hw.ambient hw
  | install hxy _ ih =>
    refine ih _ _ hw.ambient { hw with left := ?_, right := ?_, ambient := hxy }
    · exact hw.left.congr rfl rfl
    · exact hw.right.congr rfl rfl
  | @definition _ name x y hname _ _ _ ih =>
    have hx : (Query.definition name).answer P.left w = (some x, w) :=
      congrArg (·, w) (hw.left.names name x ⟨y, hname⟩)
    have hy : (Query.definition name).answer P.right w' = (some y, w') :=
      congrArg (·, w') (hw.right.names name y ⟨x, hname⟩)
    rw [run_ask, run_ask, hx, hy]
    exact ih hw
  | forget hname _ ih =>
    obtain ⟨hanswer, hw'⟩ := hw.forget hname
    rw [run_ask, run_ask]
    simp only [Query.answer]
    rw [hanswer]
    exact ih _ hw'
  | @alive _ x y hxy _ _ _ ih =>
    have hx : (Query.alive x).answer P.left w = (true, w) :=
      congrArg (·, w) (hw.left.alive ⟨y, hxy⟩)
    have hy : (Query.alive y).answer P.right w' = (true, w') :=
      congrArg (·, w') (hw.right.alive ⟨x, hxy⟩)
    rw [run_ask, run_ask, hx, hy]
    exact ih hw
  | known hq hq' _ ih =>
    rw [run_ask, run_ask, hq, hq']
    exact ih hw
  | function hcode _ _ ih =>
    rw [run_function, run_function, hw.size]
    exact ih _ (hw.push hcode)
  | call f arg _ ih =>
    rcases hw.getElem? f with ⟨hf, hg⟩ | ⟨found, found', hf, hg, hfound⟩
    · rw [run_call_none P.left b w arg _ hf, run_call_none P.right b w' arg _ hg]
      exact .halted _
    · cases b with
      | zero =>
        rw [run_call_zero P.left w arg _ hf, run_call_zero P.right w' arg _ hg]
        exact .halted _
      | succ b =>
        rw [run_call P.left b w arg _ hf, run_call P.right b w' arg _ hg]
        refine (ihb b (Nat.lt_succ_self b) (hfound arg)
          ((hw.entering_left _).entering_right _)).onward fun r r' u u' hr hu => ih r r' hr ?_
        exact hw.leaving_left (hw.leaving_right hu _) _
  | @invoke _ x y d e hd he r args hanswer _ _ _ _ ih =>
    cases b with
    | zero =>
      rw [run_invoke_zero P.left w r args _ hd, run_invoke_zero P.right w' r args _ he]
      exact .halted _
    | succ b =>
      rw [run_invoke P.left b w r args _ hd, run_invoke P.right b w' r args _ he]
      refine (ihb b (Nat.lt_succ_self b) hanswer
        ((hw.entering_left _).entering_right _)).onward fun r r' u u' hr hu => ih r r' hr ?_
      exact hw.leaving_left (hw.leaving_right hu _) _
  | holding g g' _ _ ihp ih =>
    rw [run_within, run_within]
    refine (ihp ((hw.entering_left g).entering_right g')).onward fun r r' u u' hr hu =>
      ih r r' hr ?_
    exact hw.leaving_left (hw.leaving_right hu _) _
  | @installed _ _ x y hxy _ _ _ _ _ _ ihp ih =>
    rw [run_within, run_within]
    exact (ihp (hw.entering_installed hxy)).onward fun r r' u u' hr hu =>
      ih r r' hr (hw.leaving_installed hu x y)
  | left g _ _ ihp ih =>
    rw [run_within, run_outcome_bind]
    exact (ihp (hw.entering_left g)).onward fun r r' u u' hr hu =>
      ih r r' hr (hw.leaving_left hu g)
  | right g _ _ ihp ih =>
    rw [run_within, run_outcome_bind]
    exact (ihp (hw.entering_right g)).onward fun r r' u u' hr hu =>
      ih r r' hr (hw.leaving_right hu g)

end EffectLayers
