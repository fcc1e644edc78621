import EffectLayers.Proofs.Layer.Respect

/-!
# Coerced yields

With coercion among the layers, `seq` does the same whether a source yields raw values or values
that were coerced before. The coercion layer sees to that, and so does a carrier; a context
layer that is to run nothing but the thunk of `run` derives `seq` anew, past the coercion.

## Main definitions

* `Source.mapped`: a source that passes each of its yields through a function first.
* `Seed.Coerces`, `Definition.Coerces`: the `coerce` that was given computes at once and
  changes nothing that it has answered.
* `Definition.CoercesYields`: `seq` does the same with coerced yields.

## Main statements

* `Options.coerces_yields_iff`: the options for which yields are coerced.
-/

namespace EffectLayers

/-! ## Sources whose yields are computed further -/

namespace Source

/-- The source with each of its yields passed through `k` before it is handed out. -/
def mapped (g : Source) (k : Value → Prog Value) : Source where
  State := g.State
  start := g.start
  step state input := do
    match ← g.step state input with
    | none => pure none
    | some (produced, next) => pure (some (← k produced, next))
  holds := g.holds

variable {f : Value → Except Fault Value} {g g' : Source}

/-- What a step answers, with its yield computed further. -/
def through {State : Type} (f : Value → Except Fault Value) :
    Option (Value × State) → Except Fault (Option (Value × State))
  | none => .ok none
  | some (produced, next) => (f produced).map fun v => some (v, next)

theorem through_through {State : Type} (hf : ∀ v u, f v = .ok u → f u = .ok u)
    (r : Option (Value × State)) : (through f r >>= through f) = through f r := by
  cases r with
  | none => rfl
  | some r =>
    cases h : f r.1 with
    | error e => simp [through, h, Except.map, bind, Except.bind]
    | ok u => simp [through, h, hf _ _ h, Except.map, bind, Except.bind]

/-- The second source is the first one with its yields computed further at once. -/
inductive Through (f : Value → Except Fault Value) : Source → Source → Prop where
  | mk {State : Type} {start start' : Closure (Prog State)}
      {step step' : State → Value → Prog (Option (Value × State))} {holds : State → Holding}
      (hholds : start.holds = start'.holds) (hstart : start.code.Alike start'.code)
      (hstep : ∀ s v, (step' s v).Alike (step s v >>= fun r => .done (through f r))) :
      Through f ⟨State, start, step, holds⟩ ⟨State, start', step', holds⟩

theorem through_mapped {k : Value → Prog Value} (hk : ∀ v, (k v).Alike (.done (f v)))
    (g : Source) : Through f g (g.mapped k) := by
  refine .mk rfl (.refl _) fun s v => Prog.Alike.bind_right _ fun r => ?_
  cases r with
  | none => exact .refl _
  | some r =>
    refine ((hk r.1).bind_left _).trans (.of_eq ?_)
    simp only [through]
    cases f r.1 <;> rfl

/-- The yields are mapped at once. -/
theorem step_mapYields {k : Value → Prog Value} (hk : ∀ v, (k v).Alike (.done (f v)))
    (g : Source) (s : g.State) (v : Value) :
    ((g.mapYields { code := k }).step s v).Alike
      (g.resume s v >>= fun r => .done (through f r)) := by
  refine Prog.Alike.bind_right _ fun r => ?_
  cases r with
  | none => exact .refl _
  | some r =>
    have hcall : (Prog.holding (g.holds r.2) (Closure.call { code := k } r.1)).Alike
        (.done (f r.1)) :=
      (((hk r.1).holding _).trans (.inside_done _ _)).holding _ |>.trans (.inside_done _ _)
    refine (hcall.bind_left _).trans (.of_eq ?_)
    simp only [through]
    cases f r.1 <;> rfl

theorem bind_through {State : Type} (hf : ∀ v u, f v = .ok u → f u = .ok u)
    (p : Prog (Option (Value × State))) :
    ((p >>= fun r => .done (through f r)) >>= fun r => .done (through f r)) =
      p >>= fun r => .done (through f r) := by
  rw [bind_assoc]
  refine congrArg _ (funext fun r => ?_)
  refine Eq.trans ?_ (congrArg Prog.done (through_through hf r))
  cases through f r <;> rfl

/-- Computing the yields further changes nothing that is computed in the same way again. -/
theorem Through.mapYields {k : Value → Prog Value} (hk : ∀ v, (k v).Alike (.done (f v)))
    (hf : ∀ v u, f v = .ok u → f u = .ok u) (h : Through f g g') :
    (g.mapYields { code := k }).Alike (g'.mapYields { code := k }) := by
  obtain ⟨hholds, hstart, hstep⟩ := h
  rename_i State start start' step step' holds
  refine .mk (congrArg (· ++ _) hholds) hstart fun s v => ?_
  have hresume : (Prog.holding (holds s) (step' s v)).Alike
      (Prog.holding (holds s) (step s v) >>= fun r => .done (through f r)) :=
    ((hstep s v).holding _).trans (.inside_bind _ _ _)
  have htwice := (hresume.bind_left fun r => .done (through f r)).trans
    (.of_eq (bind_through hf _))
  have hleft := step_mapYields hk ⟨State, start, step, holds⟩ s v
  have hright := step_mapYields hk ⟨State, start', step', holds⟩ s v
  exact hleft.trans (htwice.symm.trans hright.symm)

/-- Installing a definition changes nothing about it. -/
theorem Through.source (a : Installer) (h : Through f g g') :
    Through f (a.source g) (a.source g') := by
  obtain ⟨hholds, hstart, hstep⟩ := h
  rename_i State start start' step step' holds
  refine .mk hholds (a.around_alike hstart) fun s v => ?_
  refine (a.around_alike (hstep s v)).trans ?_
  refine .trans (Prog.Alike.bind_right _ fun alive => ?_) (.of_eq (bind_assoc _ _ _).symm)
  cases alive with
  | false => exact .refl _
  | true => exact .inside_bind _ _ _

end Source

/-! ## Coercions that compute at once -/

/-- The seed gives a `coerce` that computes `f` at once; what it has answered it answers
again. -/
structure Seed.Coerces (s : Seed) (f : Value → Except Fault Value) : Prop where
  given : ∃ k, s.ops .coerce = some k ∧ ∀ v, (k v).Alike (.done (f v))
  settles : ∀ v u, f v = .ok u → f u = .ok u

/-- The definition was given a `coerce` that computes `f` at once; what it has answered it
answers again. -/
structure Definition.Coerces (d : Definition) (f : Value → Except Fault Value) : Prop where
  supplies : d.supplies .coerce = true
  computes : ∀ v, (d.table .coerce v).Alike (.done (f v))
  settles : ∀ v u, f v = .ok u → f u = .ok u

theorem Seed.Coerces.definition? {s : Seed} {f : Value → Except Fault Value} (h : s.Coerces f)
    {id : DefId} {d : Definition} (hd : s.definition? id = some d) : d.Coerces f := by
  obtain ⟨k, hk, hf⟩ := h.given
  obtain ⟨hsupplies, htable⟩ := table_of_definition? hd hk
  exact ⟨hsupplies, fun v => htable ▸ hf v, h.settles⟩

namespace Definition

/-- `seq` does the same whether yields are raw or were computed further by `f`. -/
def Absorbs (d : Definition) (f : Value → Except Fault Value) : Prop :=
  ∀ g g', Source.Through f g g' → (d.table .seq g).Alike (d.table .seq g')

/-- Whatever is bound may as well be computed further by `f` first. -/
def BindAbsorbs (d : Definition) (f : Value → Except Fault Value) : Prop :=
  ∀ v (k : Callback), (d.table .bind v k).Alike (.done (f v) >>= fun u => d.table .bind u k)

namespace Coerces

variable {inner d : Definition} {f : Value → Except Fault Value} {id : DefId}

/-- A layer that keeps its values keeps their `coerce`. -/
theorem keeping (h : inner.Coerces f) {s : Seed}
    (hs : s.ops .coerce = if inner.supplies .coerce then some (inner.table .coerce) else none) :
    s.Coerces f := by
  rw [h.supplies, if_pos rfl] at hs
  exact ⟨⟨_, hs, h.computes⟩, h.settles⟩

theorem escape (h : inner.Coerces f) : (Escape.seed inner).Coerces f := by
  refine h.keeping ?_
  rw [Escape.seed]
  split <;> rfl

theorem context (h : inner.Coerces f) (mode : ContextMode) (self : DefId) :
    (inner.contextSeed mode self).Coerces f :=
  h.keeping (by cases mode <;> rfl)

theorem coercion (h : inner.Coerces f) : (Coercion.seed inner).Coerces f := h.keeping rfl

end Coerces

end Definition

/-! ### Carriers -/

namespace Packing

variable {w : Packing} {f : Value → Except Fault Value} {k : Value → Prog Value}

/-- What is coerced into a carrier of the brand: it stays, or its inner value is coerced. -/
def coerced (w : Packing) (f : Value → Except Fault Value) (v : Value) : Except Fault Value :=
  match w.inner? v with
  | some _ => .ok v
  | none => (f v).map w.pack

theorem coerced_settles (v u : Value) (h : w.coerced f v = .ok u) : w.coerced f u = .ok u := by
  unfold coerced at h
  cases hv : w.inner? v with
  | some inner =>
    rw [hv] at h
    cases h
    simp only [coerced, hv]
  | none =>
    rw [hv] at h
    cases hf : f v with
    | error e =>
      rw [hf] at h
      cases h
    | ok x =>
      rw [hf] at h
      cases h
      simp only [coerced, inner?_pack]

theorem coerce_alike (hk : ∀ v, (k v).Alike (.done (f v))) (v : Value) :
    (w.coerce k v).Alike (.done (w.coerced f v)) := by
  unfold coerce coerced
  cases w.inner? v with
  | some inner => exact .refl _
  | none =>
    refine ((hk v).bind_left _).trans (.of_eq ?_)
    cases f v <;> rfl

/-- What is unpacked may as well be coerced into a carrier first. -/
theorem unpack_alike (hw : w.coercion = some k) (hk : ∀ v, (k v).Alike (.done (f v)))
    (v : Value) : (w.unpack v).Alike (.done (w.coerced f v) >>= w.unpack) := by
  cases hv : w.inner? v with
  | some inner => exact .of_eq (by simp only [coerced, hv]; rfl)
  | none =>
    have hunpack : w.unpack v = k v := by simp only [unpack, hv, hw]
    rw [hunpack]
    refine (hk v).trans (.of_eq ?_)
    simp only [coerced, hv]
    cases f v with
    | error e => rfl
    | ok x =>
      change Prog.done (.ok x) = w.unpack (w.pack x)
      rw [unpack_pack]
      rfl

theorem bindWith_alike (hw : w.coercion = some k) (hk : ∀ v, (k v).Alike (.done (f v)))
    (bind : Value → Callback → Prog Value) (v : Value) (c : Callback) :
    (w.bindWith bind v c).Alike (.done (w.coerced f v) >>= fun u => w.bindWith bind u c) := by
  refine (((unpack_alike hw hk v).holding c.holds).bind_left _).trans ?_
  cases w.coerced f v with
  | error e => exact (Prog.Alike.inside_done _ (.error e)).bind_left _
  | ok u => exact .refl _

end Packing

namespace Definition.Coerces

variable {inner d : Definition} {f : Value → Except Fault Value} {id : DefId}

theorem coercion_packing (h : inner.Coerces f) (brand : Brand) :
    (inner.packing brand).coercion = some (inner.table .coerce) := by
  simp [packing, h.supplies]

theorem carrier (h : inner.Coerces f) (brand : Brand) :
    ((inner.packing brand).seed inner).Coerces ((inner.packing brand).coerced f) := by
  refine ⟨⟨(inner.packing brand).coerce (inner.table .coerce), ?_, ?_⟩, Packing.coerced_settles⟩
  · change (inner.packing brand).coercion.map _ = _
    rw [h.coercion_packing]
    rfl
  · exact Packing.coerce_alike h.computes

theorem bindAbsorbs_carrier (h : inner.Coerces f) {brand : Brand}
    (hd : ((inner.packing brand).seed inner).definition? id = some d) :
    d.BindAbsorbs ((inner.packing brand).coerced f) := by
  have hbind : d.table .bind = _ := (Seed.table_of_definition? hd rfl).2
  intro v k
  rw [hbind]
  exact Packing.bindWith_alike (h.coercion_packing brand) h.computes _ v k

end Definition.Coerces

/-! ## Layers that absorb -/

/-- The walk over a source whose yields were computed further, if what is bound may as well
be. -/
theorem Seed.seqFrom_through {f : Value → Except Fault Value}
    {bind : Value → Callback → Prog Value} {lift : Value → Prog Value}
    (hbind : ∀ a (k l : Callback), k.Alike l → (bind a k).Alike (bind a l))
    (habsorbs : ∀ v k, (bind v k).Alike (.done (f v) >>= fun u => bind u k))
    {State : Type} {start start' : Closure (Prog State)}
    {step step' : State → Value → Prog (Option (Value × State))} {holds : State → Holding}
    (hstep : ∀ s v, (step' s v).Alike (step s v >>= fun r => .done (Source.through f r)))
    (n : Nat) (state : State) (input : Value) :
    (seqFrom bind lift ⟨State, start, step, holds⟩ n state input).Alike
      (seqFrom bind lift ⟨State, start', step', holds⟩ n state input) := by
  induction n generalizing state input with
  | zero => exact .refl _
  | succ n ih =>
    have hresume : (Prog.keeping [input] (Prog.holding (holds state) (step' state input))).Alike
        (Prog.keeping [input] (Prog.holding (holds state) (step state input)) >>= fun r =>
          .done (Source.through f r)) :=
      ((((hstep state input).holding _).trans (.inside_bind _ _ _)).holding _).trans
        (.inside_bind _ _ _)
    refine Prog.Alike.holding _ (.trans ?_ (hresume.bind_left _).symm)
    refine .trans (.bind_right _ fun r => ?_) (.of_eq (bind_assoc _ _ _).symm)
    cases r with
    | none => exact .refl _
    | some r =>
      let k : Callback := ⟨seqFrom bind lift ⟨State, start, step, holds⟩ n r.2, holds r.2⟩
      let k' : Callback := ⟨seqFrom bind lift ⟨State, start', step', holds⟩ n r.2, holds r.2⟩
      have hnext : (bind r.1 k).Alike (.done (f r.1) >>= fun u => bind u k') :=
        (hbind r.1 k k' ⟨rfl, fun v => ih r.2 v⟩).trans (habsorbs r.1 k')
      refine (hnext.holding { values := [input] }).trans ?_
      simp only [Source.through]
      cases f r.1 with
      | error e => exact .inside_done _ _
      | ok u => exact .refl _

namespace Definition

variable {inner d : Definition} {f : Value → Except Fault Value} {id : DefId}

theorem absorbs_coercion (hr : inner.table.Respects) (hc : inner.Coerces f)
    (hd : (Coercion.seed inner).definition? id = some d) : d.Absorbs f := by
  obtain rfl := Option.some.inj hd
  exact fun g g' hg => hr.seq _ _ (hg.mapYields hc.computes hc.settles)

theorem bindAbsorbs_coercion (h : inner.BindAbsorbs f)
    (hd : (Coercion.seed inner).definition? id = some d) : d.BindAbsorbs f := by
  obtain rfl := Option.some.inj hd
  exact fun v k => h v _

theorem absorbs_context_full (h : inner.Absorbs f)
    (hd : (inner.contextSeed .full id).definition? id = some d) : d.Absorbs f := by
  obtain rfl := Option.some.inj hd
  exact fun g g' hg => h _ _ (hg.source _)

theorem absorbs_context_runOnly (hr : inner.table.Respects) (h : inner.BindAbsorbs f)
    (hd : (inner.contextSeed .runOnly id).definition? id = some d) : d.Absorbs f := by
  obtain rfl := Option.some.inj hd
  rintro _ _ ⟨hholds, hstart, hstep⟩
  rename_i State start start' step step' holds
  obtain ⟨code, held⟩ := start
  obtain ⟨code', held'⟩ := start'
  obtain rfl := hholds
  refine Prog.Alike.holding _ (.bounded fun n => (hstart.holding _).bind fun state => ?_)
  exact Seed.seqFrom_through hr.bind h hstep n state .unit

end Definition

/-! ## Building -/

/-- What a run shows: why it has no outcome, or its result or fault and the log. -/
def Outcome.observed {α : Type} : Outcome α → Except Halt (Except Fault α × Array Value)
  | halted h => .error h
  | finished r w => .ok (r, w.log)

theorem Outcome.Alike.observed {α : Type} {o o' : Outcome α} (h : o.Alike o') :
    o.observed = o'.observed := by
  cases h with
  | halted h => rfl
  | finished r hw =>
    obtain ⟨fs, -, -⟩ := hw
    rfl

/-- `seq` shows the same whether a source yields raw values or coerced ones. -/
def Definition.CoercesYields (d : Definition) : Prop :=
  ∀ (g : Source) (c : Catalog) (b : Nat) (w : World),
    ((d.table .seq g).run c b w).observed =
      ((d.table .seq (g.mapped (d.table .coerce))).run c b w).observed

/-- The definition sequences as layers expect it: it only calls callbacks, and its `coerce`
computes at once. -/
structure Definition.Sequences (d : Definition) (f : Value → Except Fault Value) : Prop where
  respects : d.table.Respects
  coerces : d.Coerces f

namespace Definition

variable {inner d : Definition} {f : Value → Except Fault Value} {c c' : Catalog}

theorem Absorbs.coercesYields (h : d.Absorbs f) (hc : d.Coerces f) : d.CoercesYields :=
  fun g c b w => ((h _ _ (g.through_mapped hc.computes)).run c b (.refl w)).observed

theorem sequences_of_definition? {s : Seed} {id : DefId} (hs : s.Respects) (hc : s.Coerces f)
    (hd : s.definition? id = some d) : d.Sequences f :=
  ⟨hs.definition? hd, hc.definition? hd⟩

namespace Sequences

theorem withContext (h : inner.Sequences f) {mode : ContextMode}
    (hd : inner.withContext mode c = (.ok d, c')) : d.Sequences f := by
  by_cases hmode : mode = .off
  · subst hmode
    cases hd
    exact h
  · obtain ⟨id, hd⟩ := definition?_of_withContext hmode hd
    exact sequences_of_definition? (h.respects.context _ _) (h.coerces.context _ _) hd

theorem escaping (h : inner.Sequences f) {escape : Bool}
    (hd : inner.escaping escape c = (.ok d, c')) : d.Sequences f := by
  cases escape with
  | false =>
    cases hd
    exact h
  | true =>
    obtain ⟨id, hd⟩ := definition?_of_withEscapeControl hd
    exact sequences_of_definition? h.respects.escape h.coerces.escape hd

theorem carried (h : inner.Sequences f) {brand : Option Brand}
    (hd : inner.carried brand c = (.ok d, c')) :
    ∃ f', d.Sequences f' ∧ (brand ≠ none → d.BindAbsorbs f') := by
  cases brand with
  | none =>
    cases hd
    exact ⟨f, h, fun hne => absurd rfl hne⟩
  | some brand =>
    obtain ⟨id, hd⟩ := definition?_of_withCarrier hd
    exact ⟨_, sequences_of_definition? (h.respects.carrier _) (h.coerces.carrier brand) hd,
      fun _ => h.coerces.bindAbsorbs_carrier hd⟩

/-- Coercion and a context on top: yields are coerced, unless only the thunk of `run` is wrapped
and there is no carrier. -/
theorem coercesYields_withLayers (h : inner.Sequences f) {o : Options} {brand : Option Brand}
    (ho : o.coercion = true) (hrunOnly : o.context = .runOnly → brand ≠ none)
    (hd : inner.withLayers o brand c = (.ok d, c')) : d.CoercesYields := by
  obtain ⟨d₁, c₁, d₂, c₂, c₃, h₁, h₂, h₃, -⟩ := stages_of_withLayers hd
  obtain ⟨f', hcarried, hbind⟩ := h.carried h₁
  rw [ho] at h₂
  obtain ⟨id, hcoercion⟩ := definition?_of_withCoercion h₂
  have hcoerces := hcarried.coerces.coercion.definition? hcoercion
  have habsorbs := absorbs_coercion hcarried.respects hcarried.coerces hcoercion
  cases hcontext : o.context with
  | off =>
    rw [hcontext] at h₃
    cases h₃
    exact habsorbs.coercesYields hcoerces
  | full =>
    rw [hcontext] at h₃
    have hmode : ContextMode.full ≠ .off := nofun
    obtain ⟨id, h₃⟩ := definition?_of_withContext hmode h₃
    exact (absorbs_context_full habsorbs h₃).coercesYields ((hcoerces.context _ _).definition? h₃)
  | runOnly =>
    rw [hcontext] at h₃
    have hmode : ContextMode.runOnly ≠ .off := nofun
    obtain ⟨id, h₃⟩ := definition?_of_withContext hmode h₃
    have hbind := bindAbsorbs_coercion (hbind (hrunOnly hcontext)) hcoercion
    have hrespects := hcarried.respects.coercion.definition? hcoercion
    exact (absorbs_context_runOnly hrespects hbind h₃).coercesYields
      ((hcoerces.context _ _).definition? h₃)

end Sequences

end Definition

namespace Seed

variable {s : Seed} {f : Value → Except Fault Value}

theorem sequences_complete (hs : s.Respects) (hc : s.Coerces f) {c c' : Catalog} {d : Definition}
    (h : s.complete c = (.ok d, c')) : d.Sequences f := by
  obtain ⟨inner, id, c₁, c₂, hinner, hcontext⟩ := context_of_complete h
  exact (Definition.sequences_of_definition? hs hc hinner).withContext hcontext

theorem coercesYields_build (hs : s.Respects) (hc : s.Coerces f) {o : Options} {c c' : Catalog}
    {d : Definition} (ho : o.coercion = true) (hrunOnly : o.context = .runOnly → o.carrier ≠ none)
    (h : s.build o c = (.ok d, c')) : d.CoercesYields := by
  obtain ⟨d₀, c₀, e, c₁, brand, c₂, hcomplete, hescaping, rfl, h⟩ := stages_of_build h
  have he : e.Sequences f := (sequences_complete hs hc hcomplete).escaping hescaping
  exact he.coercesYields_withLayers ho
    (fun hcontext => mt Option.map_eq_none_iff.mp (hrunOnly hcontext)) h

end Seed

/-! ## Where the coercion is passed over -/

namespace Effects

/-- `Box(v)`, given by `join` and `map`, with a `coerce`. -/
def coercingBox : Seed :=
  boxed.set .coerce fun v => pure (if (v.arg? "Box").isSome then v else .ctor "Box" v)

theorem respects_coercingBox : coercingBox.Respects := by
  refine ⟨nofun, fun _ hmap a f g hfg => ?_, nofun⟩
  obtain rfl := Option.some.inj hmap
  exact Prog.Alike.bind_right _ fun v => (hfg.call v).bind_left _

theorem coerces_coercingBox : coercingBox.Coerces fun v =>
    .ok (if (v.arg? "Box").isSome then v else .ctor "Box" v) := by
  refine ⟨⟨_, rfl, fun v => .refl _⟩, fun v u h => ?_⟩
  obtain rfl := Except.ok.inj h
  cases hv : (v.arg? "Box").isSome with
  | true => simp [hv]
  | false => simp [Value.arg?]

end Effects

/-- The source that yields a value, and ends when it is resumed. -/
def Source.once (v : Value) : Source where
  State := Bool
  start := ⟨pure true, { }⟩
  step more _ := pure (if more then some (v, false) else none)
  holds _ := { }

/-- Whether a run ends in a fault. -/
def Outcome.faults {α : Type} (o : Outcome α) : Bool :=
  match o.observed with
  | .ok (.error _, _) => true
  | _ => false

/-- Without a carrier, a context layer for the thunk of `run` derives `seq` past the coercion. -/
theorem Effects.not_coercesYields_coercingBox (escape : Bool) (dispatch : Dispatch) :
    ∃ d c', coercingBox.build ⟨escape, none, true, .runOnly, dispatch⟩ .empty = (.ok d, c') ∧
      ¬ d.CoercesYields := by
  have hshown : (match (coercingBox.build ⟨escape, none, true, .runOnly, dispatch⟩ .empty).1 with
      | .ok d => ((d.table .seq (.once (.int 1))).run .empty 4 .empty).faults &&
          !((d.table .seq ((Source.once (.int 1)).mapped (d.table .coerce))).run
            .empty 4 .empty).faults
      | .error _ => false) = true := by
    cases escape <;> cases dispatch <;> decide +kernel
  rcases hbuild : coercingBox.build ⟨escape, none, true, .runOnly, dispatch⟩ .empty with
    ⟨e | d, c'⟩
  · rw [hbuild] at hshown
    cases hshown
  · rw [hbuild] at hshown
    refine ⟨d, c', rfl, fun h => ?_⟩
    simp only [Outcome.faults] at hshown
    rw [h (.once (.int 1)) .empty 4 .empty, Bool.and_not_self] at hshown
    cases hshown

/-- The options with coercion for which yields are coerced: all but those of a context layer for
the thunk of `run` alone, without a carrier. -/
theorem Options.coerces_yields_iff (o : Options) (ho : o.coercion = true) :
    (∀ s f c c' d, Seed.Respects s → s.Coerces f → s.build o c = (.ok d, c') → d.CoercesYields) ↔
      (o.context = .runOnly → o.carrier ≠ none) := by
  constructor
  · intro h hcontext hcarrier
    obtain ⟨escape, carrier, coercion, context, dispatch⟩ := o
    obtain rfl : coercion = true := ho
    obtain rfl : context = .runOnly := hcontext
    obtain rfl : carrier = none := hcarrier
    obtain ⟨d, c', hbuild, hd⟩ := Effects.not_coercesYields_coercingBox escape dispatch
    exact hd (h _ _ _ _ _ Effects.respects_coercingBox Effects.coerces_coercingBox hbuild)
  · intro hrunOnly s f c c' d hs hc hbuild
    exact Seed.coercesYields_build hs hc ho hrunOnly hbuild

/-- With every layer that the standard options ask for, the yields of a box are coerced. -/
theorem Options.coerces_yields_standard :
    ∃ d c', Effects.coercingBox.build .standard .empty = (.ok d, c') ∧ d.CoercesYields := by
  obtain ⟨d, c', hbuild⟩ : ∃ d c', Effects.coercingBox.build .standard .empty = (.ok d, c') :=
    ⟨_, _, rfl⟩
  have h := (coerces_yields_iff .standard rfl).mpr nofun
  exact ⟨d, c', hbuild, h _ _ _ _ _ Effects.respects_coercingBox Effects.coerces_coercingBox hbuild⟩

end EffectLayers
