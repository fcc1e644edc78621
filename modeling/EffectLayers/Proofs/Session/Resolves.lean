import EffectLayers.Proofs.Session.Dispatch
import EffectLayers.Proofs.Session.Lookup

/-!
# Where lookups lead

A carried value brings along the bind of the definition that its brand leads to: its home or, if it
has none, what is installed. Nothing keeps that definition from looking up the bind of the same
value again. Lookups stop if each carrier is taken apart where it leads to, and otherwise they may
go round for ever.

## Main definitions

* `Catalog.responsible`, `Catalog.Finds`: the definition that a brand leads to.
* `Catalog.Opens`: it looks up only what is in the carrier.
* `Value.Circles`: lookups arrive at a carrier that is looked up again.

## Main statements

* `Value.resolves_nested`, `Value.Circles.exhausts`: lookups that stop, and lookups that never do.
* `Seed.derived_bind_resolves`: both, for every seed that binds by lookup.
-/

namespace EffectLayers

variable {c : Catalog} {w w' : World}

/-! ## Where a lookup leads -/

namespace Catalog

/-- The definition that values of the brand use: its home or, if it has none, whatever is
installed. -/
def responsible (c : Catalog) (w : World) (b : Brand) : Option DefId := (c.home b.id).or w.ambient

/-- The definition that values of the brand use is there. -/
inductive Finds (c : Catalog) (w : World) (b : Brand) (i : DefId) : Prop
  | home (h : c.home b.id = some i) (halive : w.alive c i = true)
  | ambient (h : c.home b.id = none) (hi : w.ambient = some i)

theorem finds_iff {b : Brand} {i : DefId} :
    c.Finds w b i ↔ Dispatches c.homes.reverse c w b (.ok i) := by
  have hhome : c.homes.reverse.reverse.lookup b.id = c.home b.id := by
    rw [List.reverse_reverse, home]
  constructor
  · rintro (⟨h, halive⟩ | ⟨h, hi⟩)
    · exact .home (lookup_reverse_eq_some_iff.mp (hhome.trans h)) (World.alive_iff_held.mp halive)
    · exact .ambient (lookup_reverse_eq_none_iff.mp (hhome.trans h)) hi
  · rintro (⟨h, held⟩ | - | ⟨h, hi⟩)
    · exact .home (hhome.symm.trans (lookup_reverse_eq_some_iff.mpr h))
        (World.alive_iff_held.mpr held)
    · exact .ambient (hhome.symm.trans (lookup_reverse_eq_none_iff.mpr h)) hi

theorem Finds.responsible {b : Brand} {i : DefId} (h : c.Finds w b i) : i ∈ c.responsible w b := by
  cases h with
  | home h _ => rw [Catalog.responsible, h]; rfl
  | ambient h hi => rw [Catalog.responsible, h, hi]; rfl

theorem Finds.mono {b : Brand} {i : DefId} (h : c.Finds w b i) (hw : w.Adds w') :
    c.Finds w' b i := by
  cases h with
  | home h halive => exact .home h (World.alive_mono halive hw)
  | ambient h hi => exact .ambient h (hw.ambient.trans hi)

/-- From the world `w` on, the definition that a carrier uses looks up nothing, or anything but the
carrier itself. -/
def Opens (c : Catalog) (w : World) (b : Brand) (x : Value) : Prop :=
  ∀ i ∈ c.responsible w b, ∃ d y,
    c.get? i = some d ∧ d.Asks c w (.carrier b x) y ∧ y ≠ some (.carrier b x)

end Catalog

namespace Value

variable {b : Brand} {x : Value} {i : DefId}

theorem run_dispatch (h : c.Finds w b i) (x : Value) (n : Nat) :
    (carrier b x).dispatch.run c n w = .finished (.ok i) w := by
  obtain ⟨r, hr, hrun⟩ := Dispatches.exists_run c.homes.reverse_reverse.symm w b x n
  rw [hrun, hr.unique (Catalog.finds_iff.mp h)]

/-- Nothing is done to find the definition; if there is none, that is a fault. -/
theorem dispatch_cases (c : Catalog) (w : World) (b : Brand) (x : Value) :
    (∃ i, c.Finds w b i) ∨ ∃ e, (carrier b x).dispatch.Ends c w (.error e) w := by
  have hruns := Dispatches.exists_run c.homes.reverse_reverse.symm w b x
  obtain ⟨r, hr, -⟩ := hruns 0
  cases r with
  | ok i => exact .inl ⟨i, Catalog.finds_iff.mpr hr⟩
  | error e =>
    refine .inr ⟨e, 0, fun n _ => ?_⟩
    obtain ⟨r, hr', hrun⟩ := hruns n
    rw [hrun, hr'.unique hr]

theorem method_bind (a f : Value) :
    a.method .bind [f] = a.dispatch >>= fun d => DefId.invoke d .bind [a, f] := rfl

/-- A carrier resolves if whatever its definition looks up does. -/
theorem resolves_carrier (h : ∀ i ∈ c.responsible w b, ∃ d y,
    c.get? i = some d ∧ d.Asks c w (.carrier b x) y ∧ ∀ u ∈ y, u.Resolves c w) :
    (carrier b x).Resolves c w := by
  intro f w' hw hf
  have hmade := hw.trans (World.Unnoticed.making w' f)
  have hheld := hmade.trans (.entering _ { values := [carrier b x] })
  refine .reify_bind (.holding _ ?_)
  rw [method_bind]
  rcases dispatch_cases c ((w'.making f).entering (.holding { values := [carrier b x] })) b x with
    ⟨i, hfinds⟩ | ⟨e, hfault⟩
  · have hresponsible : i ∈ c.responsible w b := by
      have hi := hfinds.responsible
      rwa [Catalog.responsible, hheld.ambient] at hi
    obtain ⟨d, y, hget, hasks, hy⟩ := h i hresponsible
    have hinvoked := hheld.trans (.entering _ { definitions := [i] })
    refine .ends_bind ⟨0, fun n _ => run_dispatch hfinds x n⟩ (.request hget ?_)
    have hcallback : StopsFrom c (w'.making f) (Value.func w'.functions.size).callback.code :=
      .callback World.functions_making (hf.mono (World.Unnoticed.making w' f).grows)
    exact hasks.stops hinvoked.grows (fun u hu => (hy u hu).mono hinvoked)
      (hcallback.mono (((World.Grows.refl _).entering _).entering _))
  · exact ⟨_, _, hfault.fault⟩

/-- If no carrier in a value leads to a definition that looks it up again, and an object in it
resolves, then the value resolves, and so does all that is in it. -/
theorem resolves_nested (a : Value) (h : ∀ b x, .carrier b x ∈ a.nested → c.Opens w b x)
    (hobjects : ∀ id text method, .object id text method ∈ a.nested →
      (object id text method).Resolves c w) : ∀ u ∈ a.nested, u.Resolves c w := by
  induction a using nested.induct with
  | case1 b x ih =>
    have hx := ih (fun b' x' hx' => h b' x' (List.mem_cons_of_mem _ hx'))
      fun id text method hx' => hobjects id text method (List.mem_cons_of_mem _ hx')
    refine List.forall_mem_cons.mpr ⟨resolves_carrier fun i hi => ?_, hx⟩
    obtain ⟨d, y, hget, hasks, hy⟩ := h b x List.mem_cons_self i hi
    refine ⟨d, y, hget, hasks, fun u hu => ?_⟩
    cases hu
    rcases List.mem_cons.mp hasks.mem_nested with rfl | hu
    · exact absurd rfl hy
    · exact hx u hu
  | case2 a ha =>
    have hnested : a.nested = [a] := by rw [nested.eq_def]; split <;> simp_all
    rw [hnested]
    refine List.forall_mem_singleton.mpr (resolves_of_ne_carrier ha ?_)
    rintro id text method rfl
    exact hobjects id text method (mem_nested_self _)

/-- What the lookup runs, if there is a definition to be used. -/
theorem run_bindByMethod (h : c.Finds w b i) (x : Value) (f : Callback) (n : Nat) :
    let v := carrier b x
    let w' := (w.making f).entering (.holding { values := [v] })
    (v.bindByMethod f).run c n w =
      ((DefId.invoke i .bind [v, .func w.functions.size]).run c n w').onward fun r w'' =>
        .finished r (w''.leaving (.holding { values := [v] }) (w.making f).toFrame) := by
  intro v w'
  have hfinds : c.Finds w' b i := (h.mono (.making w f)).mono (.entering _ _)
  have hrun : (v.bindByMethod f).run c n w =
      (Prog.keeping [v] (v.method .bind [.func w.functions.size])).run c n (w.making f) := rfl
  rw [hrun, Prog.keeping, Prog.holding, Prog.run_inside, method_bind, Prog.run_bind,
    run_dispatch hfinds]
  rfl

/-! ### Lookups that never stop -/

/-- From the world `w` on, lookups that start with the value arrive at a carrier whose definition
looks it up again. -/
inductive Circles (c : Catalog) (w : World) : Value → Prop
  | here {b : Brand} {x : Value} {i : DefId} {d : Definition} (hi : c.Finds w b i)
      (hd : c.get? i = some d) (h : d.Asks c w (.carrier b x) (some (.carrier b x))) :
      Circles c w (.carrier b x)
  | beyond {b : Brand} {x u : Value} {i : DefId} {d : Definition} (hi : c.Finds w b i)
      (hd : c.get? i = some d) (h : d.Asks c w (.carrier b x) (some u)) (hu : Circles c w u) :
      Circles c w (.carrier b x)

/-- A definition takes one call more than its bind. -/
theorem exhausts_invoke {d : Definition} {a f : Value} {n : Nat} (hd : c.get? i = some d)
    (h : ∀ m < n, (d.table .bind a f.callback).run c m
      (w.entering (.holding { definitions := [i] })) = .halted .exhausted) :
    (DefId.invoke i .bind [a, f]).run c n w = .halted .exhausted := by
  cases n with
  | zero => exact Prog.run_invoke_zero c w _ _ _ hd
  | succ n =>
    rw [DefId.invoke, DefId.request, Prog.run_invoke c n w _ _ _ hd]
    change ((d.table .bind a f.callback).run c n _).onward _ = _
    rw [h n (Nat.lt_succ_self n)]
    rfl

/-- A lookup takes one call more than what is looked up in turn. -/
theorem exhausts_bindByMethod {d : Definition} {u : Value} {n : Nat} (hi : c.Finds w b i)
    (hd : c.get? i = some d) (h : d.Asks c w (.carrier b x) (some u))
    (hu : ∀ m < n, ∀ f w', w.Adds w' → (u.bindByMethod f).run c m w' = .halted .exhausted)
    (f : Callback) (hw : w.Adds w') :
    ((carrier b x).bindByMethod f).run c n w' = .halted .exhausted := by
  have hmade := (hw.trans (.making w' f)).trans (.entering _ { values := [carrier b x] })
  rw [run_bindByMethod (hi.mono hw), exhausts_invoke hd fun m hm =>
    h.exhausts (P := fun w' => w.Adds w') (hu m hm) _ (hmade.trans (.entering _ _))]
  rfl

/-- If lookups go round, no budget is enough. -/
theorem Circles.exhausts {a : Value} (h : a.Circles c w) (n : Nat) (f : Callback)
    (hw : w.Adds w') : (a.bindByMethod f).run c n w' = .halted .exhausted := by
  induction h generalizing n f w' with
  | here hi hd h =>
    induction n using Nat.strong_induction_on generalizing f w' with
    | _ n ih => exact exhausts_bindByMethod hi hd h (fun m hm g w'' hw' => ih m hm g hw') f hw
  | beyond hi hd h _ ih =>
    exact exhausts_bindByMethod hi hd h (fun m _ g w'' hw' => ih m g hw') f hw

end Value

/-! ## Methods of objects -/

/-- A method that gives a single result. -/
def sevenMethod : Callback where
  code
    | .list [_, f] => f.call (.int 7)
    | _ => .halt .meaningless

/-- An object with that method resolves. -/
theorem resolves_seven {id : Identity} {text : String} {method : FuncId}
    (h : w.functions[method]? = some sevenMethod) : (Value.object id text method).Resolves c w := by
  intro f w' hw hf
  have hmade := hw.grows.trans (World.Unnoticed.making w' f).grows
  refine .reify_bind (.holding _ (.call (hmade.functions _ _ h) ?_))
  have hcall := StopsFrom.callback (c := c) (World.functions_making (w := w') (f := f))
    (hf.mono (World.Unnoticed.making w' f).grows)
  exact hcall (.int 7) _ (((World.Grows.refl _).entering _).entering _)

/-- A method that has the installed definition bind the object once more. -/
def againMethod : Callback where
  code
    | .list [self, f] => Ambient.invoke .bind [self, f]
    | _ => .halt .meaningless

/-- No budget is enough for an object with that method, if what is installed looks it up. -/
theorem exhausts_again {i : DefId} {d : Definition} {id : Identity} {text : String}
    {method : FuncId} (hi : w.ambient = some i) (hd : c.get? i = some d)
    (hmethod : w.functions[method]? = some againMethod)
    (h : d.Asks c w (.object id text method) (some (.object id text method))) (n : Nat)
    (f : Callback) (hw : w.Adds w') :
    ((Value.object id text method).bindByMethod f).run c n w' = .halted .exhausted := by
  induction n using Nat.strong_induction_on generalizing f w' with
  | _ n ih =>
    let v := Value.object id text method
    let args := [v, .func w'.functions.size]
    have hmade : w.Adds ((w'.making f).entering (.holding { values := [v] })) :=
      (hw.trans (.making w' f)).trans (.entering _ _)
    have hrun : (v.bindByMethod f).run c n w' =
        (Prog.keeping [v] ((Value.func method).call (.list args))).run c n (w'.making f) := rfl
    rw [hrun, Prog.keeping, Prog.holding, Prog.run_inside, Value.call]
    cases n with
    | zero => rw [Prog.run_call_zero c _ _ _ (hmade.functions _ _ hmethod)]; rfl
    | succ n =>
      have hinside := hmade.trans (.entering _ { values := [.func method] })
      have hinvoked := hinside.trans (.entering _ { definitions := [i] })
      have hinvoke := Value.exhausts_invoke (a := v) (f := .func w'.functions.size) hd fun m hm =>
        h.exhausts (P := fun w' => w.Adds w')
          (fun g w'' hw' => ih m (Nat.lt_succ_of_lt hm) g hw') _ hinvoked
      rw [Prog.run_call c n _ _ _ (hmade.functions _ _ hmethod)]
      change (((Ambient.invoke .bind args).run c n _).onward _).onward _ = _
      rw [Ambient.invoke, Prog.run_bind, Ambient.run_definition c n (hinside.ambient.trans hi),
        Outcome.bind, hinvoke]
      rfl

/-! ## What is completed -/

namespace Seed

variable {s : Seed} {d : Definition} {c₀ c₁ : Catalog}

/-- A seed that binds by lookup is completed into a definition that does, with a callback that may
run with a definition installed. -/
theorem bind_of_complete (hs : s.looksUp = true) (hd : s.complete c₀ = (.ok d, c₁)) :
    ∃ x : Option Installer,
      ∀ a f, d.table .bind a f = a.bindByMethod (f.map fun code v => (code v).under x) := by
  obtain ⟨inner, id, mode, hinner, hputs⟩ := puts_of_complete hd
  obtain ⟨x, hbind⟩ := hputs.bind_context
  refine ⟨x, fun a f => ?_⟩
  rw [hbind, bind_of_definition? hinner, bind_of_looksUp hs]

/-- A completed seed binds by lookup. Bind stops, with every callback that does, if no carrier in
the value leads, by the home of its brand or by what is installed, to a definition that looks it up
again, and if the method of an object in it stops so. If the lookups that start with the value
arrive at a carrier that is looked up again, then no budget is enough. Of the definitions that were
built, those look up nothing that are built from a seed with a bind of its own. Otherwise those with
a carrier look up what is in it, for their own brand, and those without one look up the same value
again. -/
theorem derived_bind_resolves (hs : s.looksUp = true) (hd : s.complete c₀ = (.ok d, c₁)) :
    (∀ (c : Catalog) (w : World) (a : Value) (f : Callback),
      (∀ b x, .carrier b x ∈ a.nested → c.Opens w b x) →
      (∀ id text method, .object id text method ∈ a.nested →
        (Value.object id text method).Resolves c w) →
      StopsFrom c w f.code → (d.table .bind a f).Stops c w) ∧
    (∀ (c : Catalog) (w : World) (a : Value) (f : Callback), a.Circles c w →
      ∀ n, (d.table .bind a f).run c n w = .halted .exhausted) ∧
    ∀ (t : Seed) (o : Options) (c c₂ c₃ : Catalog) (w : World) (e : Definition), t.Stops c w →
      t.build o c₂ = (.ok e, c₃) →
        (t.looksUp = false → ∀ v, e.Asks c w v none) ∧
        (t.looksUp = true → ∀ name, o.carrier = some name →
          ∃ b, e.carrierBrand? = some b ∧ ∀ x, e.Asks c w (.carrier b x) (some x)) ∧
        (t.looksUp = true → o.carrier = none → ∀ v, e.Asks c w v (some v)) := by
  obtain ⟨x, hbind⟩ := bind_of_complete hs hd
  refine ⟨fun c w a f hopens hobjects hf => ?_, fun c w a f hcircles n => ?_,
    fun t o c c₂ c₃ w e ht he => asks_build ht he⟩
  · rw [hbind]
    exact Value.resolves_nested a hopens hobjects a a.mem_nested_self _ w (.refl w) (hf.under x)
  · rw [hbind]
    exact hcircles.exhausts n _ (.refl w)

/-- A seed of `pure` alone. -/
def via : Seed := unnamed.set .pure pure

theorem stops_via : via.Stops c w where
  pure f hf := by
    cases hf
    exact .pure c w
  coerce := nofun
  join := nofun
  map := nofun
  bind := nofun

/-- The seed is completed, and built with a carrier that an object is in twice. -/
theorem derived_bind_resolves_via :
    ∃ d c₀ e c, via.complete .empty = (.ok d, c₀) ∧
      via.build ⟨false, some "m", false, .off, .home⟩ c₀ = (.ok e, c) ∧
      c.home firstNumber = some e.id ∧
      (d.table .bind
        (.carrier ⟨firstNumber, "m"⟩ (.carrier ⟨firstNumber, "m"⟩ (.object 0 "Seven" 0)))
        { code := pure }).Stops c { World.hosting e.id with functions := #[sevenMethod] } := by
  obtain ⟨d, c₀, e, c, hd, he, hhome, hbrand⟩ : ∃ d c₀ e c, via.complete .empty = (.ok d, c₀) ∧
      via.build ⟨false, some "m", false, .off, .home⟩ c₀ = (.ok e, c) ∧
      c.home firstNumber = some e.id ∧ e.carrierBrand? = some ⟨firstNumber, "m"⟩ :=
    ⟨_, _, _, _, rfl, rfl, rfl, rfl⟩
  let w : World := { World.hosting e.id with functions := #[sevenMethod] }
  obtain ⟨hstops, -, hbuilt⟩ := derived_bind_resolves (s := via) rfl hd
  obtain ⟨b, hb, hasks⟩ := (hbuilt via _ c c₀ c w e stops_via he).2.1 rfl "m" rfl
  obtain rfl : b = ⟨firstNumber, "m"⟩ := Option.some.inj (hb.symm.trans hbrand)
  refine ⟨d, c₀, e, c, hd, he, hhome, hstops c w _ _ (fun b x hx => ?_)
    (fun id text method hx => ?_) (.pure c _)⟩
  · have hopens (x : Value) : c.Opens w ⟨firstNumber, "m"⟩ x := by
      intro i hi
      rw [Catalog.responsible, hhome] at hi
      cases hi
      exact ⟨e, some x, known_of_build he, hasks x, by rintro ⟨⟩⟩
    simp only [Value.nested, List.mem_cons, Value.carrier.injEq, reduceCtorEq, List.not_mem_nil,
      or_false] at hx
    rcases hx with ⟨rfl, rfl⟩ | ⟨rfl, rfl⟩ <;> exact hopens _
  · simp only [Value.nested, List.mem_cons, Value.object.injEq, reduceCtorEq, List.not_mem_nil,
      or_false, false_or] at hx
    obtain ⟨rfl, rfl, rfl⟩ := hx
    exact resolves_seven rfl

end Seed

namespace Session

/-- A definition that binds by lookup becomes the home of a brand. -/
def homing : List Step :=
  [.define "v" (.layers (.override .unnamed .pure ["v"] (.var "v")) []), .freshBrand "b" "b",
    .adopt "b" "v"]

/-- It binds a value of the brand. -/
def homed : Expr :=
  .request (some "v") (.operation .bind) [.unary (.carry "b") (.lit (.int 1)), .fn "x" (.var "x")]

/-- The home is made of that seed, and known. -/
theorem exists_homing :
    ∃ s d c₁, after homing .empty = some s ∧
      (Seed.unnamed.set .pure (operationOf [] .pure ["v"] (.var "v"))).complete .empty =
        (.ok d, c₁) ∧
      d.KnownIn s.catalog ∧ d.id = 0 ∧ s.catalog.home firstNumber = some 0 ∧ s.env = [] ∧
      s.world = { World.empty with
        names := [("v", 0)], brands := [("b", ⟨firstNumber, "b"⟩)] } :=
  ⟨_, _, _, rfl, rfl, rfl, rfl, rfl, rfl, rfl⟩

/-- What the expression does, once its arguments are made. -/
theorem run_homed (c : Catalog) (n : Nat) (w : World) {b : Brand} {i : DefId}
    (hb : w.brands.lookup "b" = some b) (hi : w.names.lookup "v" = some i) :
    ∃ (f : Callback) (h : Holding), (homed.eval []).run c n w =
      ((DefId.invoke i .bind [.carrier b (.int 1), .func w.functions.size]).run c n
        ((w.making f).entering (.holding h))).onward
          fun r w' => .finished r (w'.leaving (.holding h) w.toFrame) := by
  let v := Value.carrier b (.int 1)
  let f : Callback := { code := fun v => Prog.keeping [v] ((Expr.var "x").eval [("x", v)]) }
  let args := [v, .func w.functions.size]
  refine ⟨f, { values := args }, ?_⟩
  have hcarry : ((Expr.unary (.carry "b") (.lit (.int 1))).eval []).run c n w =
      .finished (.ok v) w := by
    change (Prog.query (.brand "b") >>= fun b => Prog.ofOption b >>= fun b =>
      pure (Value.carrier b (.int 1))).run c n w = _
    rw [Prog.run_query_bind, Query.answer, hb]
    rfl
  have hargs : (Expr.evalAll [] [.unary (.carry "b") (.lit (.int 1)), .fn "x" (.var "x")]).run c n
      w = .finished (.ok args) (w.making f) := by
    rw [Expr.evalAll, Prog.run_bind, hcarry]
    rfl
  rw [homed, Expr.eval, Prog.run_bind, hargs]
  change (Prog.keeping args (Prog.query (.definition "v") >>= fun d => Prog.ofOption d >>= fun d =>
    DefId.request d (.operation .bind) args)).run c n (w.making f) = _
  rw [Prog.keeping, Prog.holding, Prog.run_inside, Prog.run_query_bind]
  change ((Prog.ofOption (w.names.lookup "v") >>= fun d => _).run c n _).onward _ = _
  rw [hi]
  rfl

/-- A value of the brand is bound by its home, which looks up the bind of the value, which is that
of its home. Nor does the bind of an object end, if its method has the installed definition bind the
object again. -/
theorem lookup_exhausts :
    ∃ (s : Session) (t : Seed) (c₀ c₁ : Catalog) (d : Definition),
      after homing .empty = some s ∧ t.looksUp = true ∧
      t.complete c₀ = (.ok d, c₁) ∧ StopsFrom s.catalog s.world pure ∧
      (∀ n, (d.table .bind (.carrier ⟨firstNumber, "b"⟩ (.int 1)) { code := pure }).run s.catalog n
        s.world = .halted .exhausted) ∧
      s.evaluate (homed.eval s.env) = none ∧
      ∀ n, (d.table .bind (.object 0 "Again" 0) { code := pure }).run s.catalog n
        { s.world with ambient := some 0, functions := #[againMethod] } = .halted .exhausted := by
  obtain ⟨s, d, c₁, hs, hd, hknown, hid, hhome, henv, hworld⟩ := exists_homing
  obtain ⟨id, hdefinition⟩ := Seed.definition?_of_complete rfl hd
  have hget : s.catalog.get? 0 = some d := hid ▸ hknown
  have hcircles {w : World} (hw : ("v", 0) ∈ w.names) :
      (Value.carrier ⟨firstNumber, "b"⟩ (.int 1)).Circles s.catalog w :=
    .here (.home hhome (World.alive_iff_held.mpr
      ⟨0, .named hw, hid ▸ Definition.mem_lineage hknown⟩)) hget (.lookup _ hdefinition rfl)
  have hnames : ("v", 0) ∈ s.world.names := by
    rw [hworld]
    exact List.mem_cons_self
  have hbind : d.table .bind = Value.bindByMethod := by
    rw [Seed.bind_of_definition? hdefinition, Seed.bind_of_looksUp rfl]
  refine ⟨s, _, _, c₁, d, hs, rfl, hd, .pure _ _, fun n => ?_, ?_, fun n => ?_⟩
  · rw [hbind]
    exact (hcircles hnames).exhausts n _ (.refl s.world)
  · let w : World := ({ s.world with log := #[] } : World).entering (.holding { })
    obtain ⟨f, h, hrun⟩ := run_homed s.catalog budget w (b := ⟨firstNumber, "b"⟩) (i := 0)
      (by change s.world.brands.lookup "b" = _; rw [hworld]; rfl)
      (by change s.world.names.lookup "v" = _; rw [hworld]; rfl)
    have hkeeping : (Prog.keeping (s.env.map (·.2)) (homed.eval s.env)).run s.catalog budget
        { s.world with log := #[] } = .halted .exhausted := by
      rw [henv]
      change (Prog.inside (.holding { }) (homed.eval [])).run _ _ _ = _
      rw [Prog.run_inside, hrun, Value.exhausts_invoke hget fun m _ => ?_]
      · rfl
      · have hinside : (Value.carrier ⟨firstNumber, "b"⟩ (.int 1)).Circles s.catalog
            (((w.making f).entering (.holding h)).entering (.holding { definitions := [0] })) :=
          hcircles hnames
        rw [hbind]
        exact hinside.exhausts m _ (.refl _)
    simp only [evaluate, hkeeping]
  · rw [hbind]
    exact exhausts_again rfl hget rfl (.lookup _ hdefinition rfl) n _ (.refl _)

end Session

end EffectLayers
