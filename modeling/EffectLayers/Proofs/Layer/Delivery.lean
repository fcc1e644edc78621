import EffectLayers.Proofs.Layer.Laws

/-!
# Delivery of escapes

An escape reaches its block from any depth: through continuations, handlers, cleanups and the
blocks between. Nothing runs on the way but the cleanups, from the innermost to the outermost.

## Main definitions

* `EvalContext`: what is around an escape within its block.
* `Escape.Lawful`: the bases on which escapes work, in both modes.
* `Escape.Completing`: cleanups that complete normally when run in turn.
* `Escape.Passes`: a signal passes through a definition.
* `Escape.Delimits`: an operation whose invocations are addressed each by a number of its own.

## Main statements

* `Escape.delimits_block`, `Escape.delimits_scope`: `block` and `scope` are such operations.
* `Escape.passes_threaded`, `Escape.passes_native`: a signal passes in both modes.
* `Escape.Passes.fill`: and so it does in every context.
* `Escape.delivers`: the block ends with what the escape was given.
-/

namespace EffectLayers

/-! ## Contexts -/

/-- What is around a program within a block. -/
inductive EvalContext where
  | hole
  | bind (E : EvalContext) (f : Callback)
  | map (E : EvalContext) (f : Callback)
  | handle (E : EvalContext) (h : Callback)
  | cleanup (E : EvalContext) (f : Action)
  /-- A block that does not use its own escape. -/
  | block (E : EvalContext) (holds : Holding)

namespace EvalContext

/-- The program in the context, by the operations of a table. -/
def fill (T : Table) (p : Prog Value) : EvalContext → Prog Value
  | hole => p
  | bind E f => do T .bind (← E.fill T p) f
  | map E f => do T .map (← E.fill T p) f
  | handle E h => do T .handle (← E.fill T p) h
  | cleanup E f => do T .cleanup (← E.fill T p) f
  | block E holds => T .block ⟨fun _ => E.fill T p, holds⟩

/-- The cleanups, innermost first. -/
def cleanups : EvalContext → List (Prog Value)
  | hole => []
  | bind E _ | map E _ | handle E _ | block E _ => E.cleanups
  | cleanup E f => E.cleanups ++ [f.code]

end EvalContext

namespace Escape

variable {c : Catalog} {inner d : Definition}

/-! ## The two modes as one -/

/-- How signals are sent: as exceptions, if there are handlers for them, or as results. -/
def send (inner : Definition) : Value → Prog Value :=
  if inner.supplies .handle then inner.table .raise else inner.table .pure

/-- How a block attaches its handler. -/
def catching (inner : Definition) : Value → Callback → Prog Value :=
  if inner.supplies .handle then inner.table .handle else inner.table .bind

/-- The escape that the invocation of `block` with the scope number is given. -/
def escapeTo (inner : Definition) (t : ScopeId) : Callback :=
  { code := fun v => send inner (.signal v (.scope t)) }

/-- The bases on which escapes work. Without a handler of its own a base has to be lawful; with
one its exceptions have to be lawful too, and its cleanup is the derived one. -/
inductive Lawful (c : Catalog) (inner : Definition) : Prop where
  | threaded (h : inner.supplies .handle = false) (laws : inner.Lawful c)
  | native (h : inner.supplies .handle = true) (laws : inner.Lawful c)
      (exceptions : inner.LawfulExceptions c)
      (derived : ∃ s i, Seed.definition? s i = some inner ∧ s.ops .cleanup = none)

/-- Run in turn from `w`, and whatever happens between them that nobody notices, the programs
complete normally: each answers as `pure` does, and if signals are results, of none of them. -/
def Completing (c : Catalog) (inner : Definition) : List (Prog Value) → World → Prop
  | [], _ => True
  | p :: ps, w => ∀ w₁, w.Unnoticed w₁ → ∃ u a w₂, p.Ends c w₁ (.ok a) w₂ ∧
      (inner.table .pure u).Gave c a w₂ ∧
      (inner.supplies .handle = false → u.isSignal = false) ∧ Completing c inner ps w₂

namespace Completing

variable {p : Prog Value} {ps qs : List (Prog Value)} {w w' : World}

theorem unnoticed (h : Completing c inner ps w) (hw : w.Unnoticed w') :
    Completing c inner ps w' := by
  cases ps with
  | nil => trivial
  | cons p ps => exact fun w₁ hw₁ => h w₁ (hw.trans hw₁)

/-- The later programs complete normally after the earlier ones. -/
theorem after (h : Completing c inner (ps ++ qs) w) (hps : InTurn c ps w w') :
    Completing c inner qs w' := by
  induction ps generalizing w with
  | nil => exact h.unnoticed hps
  | cons p ps ih =>
    obtain ⟨w₁, a, w₂, hw₁, hp, hps⟩ := hps
    obtain ⟨u, b, w₃, hp', -, -, h⟩ := h w₁ hw₁
    obtain ⟨-, rfl⟩ := hp.unique hp'
    exact ih h hps

theorem append_left (h : Completing c inner (ps ++ qs) w) : Completing c inner ps w := by
  induction ps generalizing w with
  | nil => trivial
  | cons p ps ih =>
    intro w₁ hw₁
    obtain ⟨u, a, w₂, hp, ha, hu, h⟩ := h w₁ hw₁
    exact ⟨u, a, w₂, hp, ha, hu, ih h⟩

theorem amounts (h : Completing c inner [p] w) :
    ∃ u, (inner.supplies .handle = false → u.isSignal = false) ∧
      p.Amounts c w [p] (inner.table .pure u) := by
  obtain ⟨u, a, w', hp, ha, hu, -⟩ := h w (.refl w)
  exact ⟨u, hu, a, w', hp, ⟨w, a, w', .refl w, hp, .refl w'⟩, ha⟩

end Completing

/-- A definition lets a signal pass: continuations and handlers are skipped, and a cleanup runs
before the signal goes on. -/
structure Passes (c : Catalog) (inner d : Definition) (s : Value) : Prop where
  send : ∀ w, (send inner s).Amounts c w [] (send inner s)
  bind : ∀ a w (f : Callback), (Escape.send inner s).Gave c a w →
    (d.table .bind a f).Amounts c w [] (Escape.send inner s)
  map : ∀ a w (f : Callback), (Escape.send inner s).Gave c a w →
    (d.table .map a f).Amounts c w [] (Escape.send inner s)
  handle : ∀ a w (h : Callback), (Escape.send inner s).Gave c a w →
    (d.table .handle a h).Amounts c w [] (Escape.send inner s)
  cleanup : ∀ a w (f : Action), (Escape.send inner s).Gave c a w →
    Completing c inner [f.code] w →
    (d.table .cleanup a f).Amounts c w [f.code] (Escape.send inner s)
  catching : ∀ a w (h : Callback), (Escape.send inner s).Gave c a w →
    inner.Follows c (catching inner a h) (h.code s) w

/-- Each invocation takes one scope number, before its body takes others, and the escape that
the body is given is addressed to that number. -/
structure Delimits (c : Catalog) (inner : Definition) (delimit : Body → Prog Value) : Prop where
  tags : ∀ (body : Body) (b : Nat) (w : World), ∃ ts,
    (delimit body).tags c b w = w.nextScope :: ts
  escape : ∃ caught : ScopeId → Value → Prog Value, ∀ body : Body,
    delimit body = Prog.holding body.holds do
      let t ← Prog.query .freshScope
      caught t (← body.call (escapeTo inner t))

/-! ## Blocks -/

theorem ops_block (inner : Definition) : (seed inner).ops .block =
    some (blockWith (send inner) (catching inner) (inner.table .pure)) := by
  unfold seed send catching
  cases inner.supplies .handle <;> rfl

theorem ops_scope (inner : Definition) : (seed inner).ops .scope =
    some (blockWith (send inner) (catching inner) (inner.table .pure)) := by
  unfold seed send catching
  cases inner.supplies .handle <;> rfl

theorem table_block {i : DefId} (hd : (seed inner).definition? i = some d) :
    d.table .block = blockWith (send inner) (catching inner) (inner.table .pure) :=
  Seed.table_given hd .block (ops_block inner)

theorem table_scope {i : DefId} (hd : (seed inner).definition? i = some d) :
    d.table .scope = blockWith (send inner) (catching inner) (inner.table .pure) :=
  Seed.table_given hd .scope (ops_scope inner)

theorem delimits_blockWith (catching : Value → Callback → Prog Value)
    (finish : Value → Prog Value) :
    Delimits c inner (blockWith (send inner) catching finish) where
  tags _ _ _ := ⟨_, rfl⟩
  escape := ⟨_, fun _ => rfl⟩

theorem delimits_block {i : DefId} (hd : (seed inner).definition? i = some d) :
    Delimits c inner (d.table .block) :=
  table_block hd ▸ delimits_blockWith _ _

theorem delimits_scope {i : DefId} (hd : (seed inner).definition? i = some d) :
    Delimits c inner (d.table .scope) :=
  table_scope hd ▸ delimits_blockWith _ _

theorem table_pure {i : DefId} (hd : (seed inner).definition? i = some d) :
    d.table .pure = inner.table .pure := by
  have hpure : (seed inner).ops .pure = some (inner.table .pure) := by
    unfold seed
    cases inner.supplies .handle <;> rfl
  exact Seed.table_given hd .pure hpure

theorem constructs_send (inner : Definition) (s : Value) :
    inner.Constructs (send inner s) := by
  unfold send
  cases inner.supplies .handle
  · exact .pure s
  · exact .raise s

namespace Passes

variable {s : Value} {i : DefId}

/-- A block whose body ends with the signal goes on as its handler does. -/
theorem block (h : Passes c inner d s) (hd : (seed inner).definition? i = some d) {body : Body}
    {w : World} {ps : List (Prog Value)} {q : Prog Value} (hq : inner.Constructs q)
    (hbody : ∀ w₁, w.Unnoticed w₁ → w₁.nextScope = w.nextScope + 1 →
      (body.code (escapeTo inner w.nextScope)).Amounts c w₁ ps (Escape.send inner s))
    (hhandler : ∀ w₁,
      (match s.caught? (.scope w.nextScope) with
        | some payload => Prog.keeping [s] (inner.table .pure payload)
        | none => Escape.send inner s).Amounts c w₁ [] q) :
    (d.table .block body).Amounts c w ps q := by
  rw [table_block hd]
  refine Prog.Amounts.holding _ (.after (.query .freshScope _) (.freshScope c _) ?_)
  refine Prog.Amounts.bind_unnoticed (.holding _ (hbody _ ?_ rfl)) fun a w' ha => ?_
  · have hfresh := World.Unnoticed.freshScope c (w.entering (.holding body.holds))
    exact (World.Unnoticed.entering w _).trans (hfresh.trans (.entering _ _))
  · exact (h.catching a w' _ ha).amounts hq fun w₁ _ => hhandler w₁

end Passes

/-! ## The two modes -/

section

variable {v : Value} {t : ScopeId} {i : DefId}

/-- Signals in the results pass. -/
theorem passes_threaded (hinner : inner.supplies .handle = false) (laws : inner.Lawful c)
    (hd : (seed inner).definition? i = some d) : Passes c inner d (.signal v (.scope t)) := by
  let s : Value := .signal v (.scope t)
  have hsend : send inner = inner.table .pure := by simp [send, hinner]
  have hcatching : catching inner = inner.table .bind := by simp [catching, hinner]
  have hpass (w : World) : (inner.table .pure s).Amounts c w [] (inner.table .pure s) :=
    laws.pure s w
  constructor
  case send =>
    intro w
    rw [hsend]
    exact hpass w
  case bind =>
    intro a w f ha
    rw [hsend] at ha ⊢
    rw [Definition.table_threaded hinner hd .bind rfl]
    exact (laws.bind s a w _ ha).amounts (.pure s) fun w₁ _ => hpass w₁
  case map =>
    intro a w f ha
    rw [hsend] at ha ⊢
    rw [Definition.table_threaded hinner hd .map rfl]
    exact laws.map_amounts ha rfl
  case handle =>
    -- The handler is for exceptions, and the signal is addressed to a block.
    intro a w h ha
    rw [hsend] at ha ⊢
    rw [Definition.table_threaded hinner hd .handle rfl]
    exact (laws.bind s a w _ ha).amounts (.pure s) fun w₁ _ => hpass w₁
  case cleanup =>
    intro a w f ha hf
    rw [hsend] at ha ⊢
    rw [Definition.table_threaded hinner hd .cleanup rfl]
    refine (laws.bind s a w _ ha).amounts (.pure s) fun w₁ hw₁ => ?_
    obtain ⟨u, hu, hamounts⟩ := (hf.unnoticed (hw₁.trans (.entering w₁ _))).amounts
    -- The result of the cleanup is no signal, so that the one before it is kept.
    refine (hamounts.holding _).bind_unnoticed fun r w' hr => ?_
    apply laws.map_amounts hr
    simp [hu hinner, s]
  case catching =>
    intro a w h ha
    rw [hsend] at ha
    rw [hcatching]
    exact laws.bind s a w h ha

/-- Signals as exceptions pass. -/
theorem passes_native (hinner : inner.supplies .handle = true) (laws : inner.Lawful c)
    (exceptions : inner.LawfulExceptions c)
    (derived : ∃ s i, Seed.definition? s i = some inner ∧ s.ops .cleanup = none)
    (hd : (seed inner).definition? i = some d) : Passes c inner d (.signal v (.scope t)) := by
  let s : Value := .signal v (.scope t)
  have hsend : send inner = inner.table .raise := by simp [send, hinner]
  have hcatching : catching inner = inner.table .handle := by simp [catching, hinner]
  have hpass (w : World) : (inner.table .raise s).Amounts c w [] (inner.table .raise s) :=
    exceptions.raise s w
  constructor
  case send =>
    intro w
    rw [hsend]
    exact hpass w
  case bind =>
    intro a w f ha
    rw [hsend] at ha ⊢
    rw [Definition.table_native hinner hd .bind rfl]
    exact exceptions.bind_raise s a w f ha
  case map =>
    intro a w f ha
    rw [hsend] at ha ⊢
    rw [Definition.table_native hinner hd .map rfl]
    exact exceptions.map_raise s a w f ha
  case handle =>
    -- The handler is reached, and raises the signal again before it looks at it.
    intro a w h ha
    rw [hsend] at ha ⊢
    rw [Definition.table_native hinner hd .handle rfl]
    exact (exceptions.handle_raise s a w _ ha).amounts (.raise s) fun w₁ _ => hpass w₁
  case cleanup =>
    intro a w f ha hf
    rw [hsend] at ha ⊢
    obtain ⟨base, j, hbase, hcleanup⟩ := derived
    rw [Definition.table_native hinner hd .cleanup rfl]
    rw [Seed.cleanup_of_definition? hbase hcleanup a f]
    have hw := World.Unnoticed.entering w f.holds
    -- The handler runs the cleanup and raises the signal again, which skips what comes after.
    refine Prog.Amounts.bind_unnoticed (.holding _ ?_) fun b w' hb =>
      exceptions.bind_raise s b w' _ hb
    refine (exceptions.handle_raise s a _ _ (ha.mono hw.grows)).amounts (.raise s)
      fun w₁ hw₁ => ?_
    obtain ⟨u, -, hamounts⟩ :=
      (hf.unnoticed (hw.trans (hw₁.trans (.entering w₁ _)))).amounts
    refine (hamounts.holding _).bind_unnoticed fun r w' hr => ?_
    exact (laws.bind u r w' _ hr).amounts (.raise s) fun w₂ _ => .holding _ (hpass _)
  case catching =>
    intro a w h ha
    rw [hsend] at ha
    rw [hcatching]
    exact exceptions.handle_raise s a w h ha

end

/-! ## Delivery -/

namespace Passes

variable {v : Value} {t : ScopeId} {i : DefId}

/-- Through every context a signal passes, if its scope number is taken: the blocks between have
later ones. -/
theorem fill (h : Passes c inner d (.signal v (.scope t)))
    (hd : (seed inner).definition? i = some d) {p : Prog Value}
    (hp : ∀ w, p.Amounts c w [] (Escape.send inner (.signal v (.scope t))))
    (E : EvalContext) {w : World} (ht : t < w.nextScope) (hE : Completing c inner E.cleanups w) :
    (E.fill d.table p).Amounts c w E.cleanups (Escape.send inner (.signal v (.scope t))) := by
  induction E generalizing w with
  | hole => exact hp w
  | bind E f ih => exact (ih ht hE).bind_unnoticed fun a w' ha => h.bind a w' f ha
  | map E f ih => exact (ih ht hE).bind_unnoticed fun a w' ha => h.map a w' f ha
  | handle E f ih => exact (ih ht hE).bind_unnoticed fun a w' ha => h.handle a w' f ha
  | cleanup E f ih =>
    exact (ih ht hE.append_left).bind fun a w' hps ha => h.cleanup a w' f ha (hE.after hps)
  | block E holds ih =>
    refine h.block hd (constructs_send inner _) (fun w₁ hw₁ hnext => ?_) fun w₁ => ?_
    · have ht₁ : t < w₁.nextScope := by grind
      exact ih ht₁ (hE.unnoticed hw₁)
    · -- The block between was entered later, so that the signal is not addressed to it.
      have hne : ¬ Tag.scope t = Tag.scope w.nextScope := by grind
      simp only [Value.caught?, hne, if_false]
      exact h.send w₁

end Passes

theorem Lawful.laws (h : Lawful c inner) : inner.Lawful c := by
  cases h with
  | threaded _ laws => exact laws
  | native _ laws => exact laws

theorem Lawful.passes {i : DefId} (h : Lawful c inner) (hd : (seed inner).definition? i = some d)
    (v : Value) (t : ScopeId) : Passes c inner d (.signal v (.scope t)) := by
  cases h with
  | threaded hinner laws => exact passes_threaded hinner laws hd
  | native hinner laws exceptions derived =>
    exact passes_native hinner laws exceptions derived hd

/-- An escape ends its block, or its scope, with what it was given, from every context. Nothing
runs on the way but the cleanups, each once and from the innermost to the outermost. Every
invocation of `block` or `scope` takes a scope number for itself, to which its escapes are
addressed, and none is taken twice in a run. -/
theorem delivers {c₀ c₁ : Catalog} (hinner : Lawful c inner)
    (hd : inner.withEscapeControl c₀ = (.ok d, c₁)) (E : Callback → EvalContext)
    (holds : Holding) (v : Value) (w : World)
    (hE : Completing c inner (E (escapeTo inner w.nextScope)).cleanups w) :
    (d.table .block ⟨fun k => (E k).fill d.table (k.call v), holds⟩).Amounts c w
        (E (escapeTo inner w.nextScope)).cleanups (d.table .pure v) ∧
      (d.table .scope ⟨fun k => (E k).fill d.table (k.call v), holds⟩).Amounts c w
        (E (escapeTo inner w.nextScope)).cleanups (d.table .pure v) ∧
      d.table .scope = d.table .block ∧
      Delimits c inner (d.table .block) ∧ Delimits c inner (d.table .scope) ∧
      ∀ (α : Type) (p : Prog α) (b : Nat) (w' : World), (p.tags c b w').Nodup := by
  obtain ⟨i, hd⟩ := Definition.definition?_of_withEscapeControl hd
  have hscope : d.table .scope = d.table .block := (table_scope hd).trans (table_block hd).symm
  have hblock : (d.table .block ⟨fun k => (E k).fill d.table (k.call v), holds⟩).Amounts c w
      (E (escapeTo inner w.nextScope)).cleanups (d.table .pure v) := by
    rw [table_pure hd]
    have hpasses := hinner.passes hd v w.nextScope
    refine hpasses.block hd (.pure v) (fun w₁ hw₁ hnext => ?_) fun w₁ => ?_
    · have hlt : w.nextScope < w₁.nextScope := by grind
      exact hpasses.fill hd (fun w => .holding _ (hpasses.send _)) _ hlt (hE.unnoticed hw₁)
    · simp only [Value.caught?, if_true]
      exact .holding _ (hinner.laws.pure v _)
  exact ⟨hblock, hscope ▸ hblock, hscope, delimits_block hd, delimits_scope hd,
    fun α p b w' => Prog.nodup_tags c b p w'⟩

/-- Through a handler, a cleanup that logs, a block and a continuation, in both modes. -/
theorem delivers_past_logging :
    let logging (answer : Value) : Prog Value := do
      Prog.query (.log (.int 1))
      return answer
    let around (answer : Value) (k : Callback) : EvalContext :=
      .bind (.block (.cleanup (.handle .hole k) ⟨logging answer, { }⟩) { }) k
    let body (d : Definition) (answer : Value) : Body :=
      ⟨fun k => (around answer k).fill d.table (k.call (.int 7)), { }⟩
    (∃ inner d c₁, Effects.identity.definition? 0 = some inner ∧
      inner.withEscapeControl .empty = (.ok d, c₁) ∧
      (d.table .block (body d .unit)).Amounts
        .empty .empty [logging .unit] (d.table .pure (.int 7))) ∧
    ∃ inner d c₁, Effects.either.definition? 0 = some inner ∧
      inner.withEscapeControl .empty = (.ok d, c₁) ∧
      (d.table .scope (body d (.ctor "Ok" .unit))).Amounts
        .empty .empty [logging (.ctor "Ok" .unit)] (d.table .pure (.int 7)) := by
  intro logging around body
  have hlogging (answer : Value) (w : World) :
      (logging answer).Ends .empty w (.ok answer) (w.record (.int 1)) :=
    (Prog.Ends.query _ w).bind (.done _ _)
  constructor
  · refine ⟨_, _, _, rfl, rfl, (delivers (.threaded rfl (Effects.lawful_identity rfl)) rfl
      (around .unit) { } (.int 7) .empty fun w₁ hw₁ => ?_).1⟩
    exact ⟨.unit, .unit, _, hlogging _ w₁, (Prog.Ends.done _ _).gave, fun _ => rfl, trivial⟩
  · refine ⟨_, _, _, rfl, rfl, (delivers (.native rfl (Effects.lawful_either rfl)
      (Effects.lawfulExceptions_either rfl) ⟨Effects.either, 0, rfl, rfl⟩) rfl
      (around (.ctor "Ok" .unit)) { } (.int 7) .empty fun w₁ hw₁ => ?_).2.1⟩
    exact ⟨.unit, _, _, hlogging _ w₁, (Prog.Ends.done _ _).gave, nofun, trivial⟩

end Escape

end EffectLayers
