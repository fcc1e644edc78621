import EffectLayers.Proofs.Layer.Steady
import EffectLayers.Proofs.Session.Made

/-!
# The installed definition in a session

What is installed changes only where a program says so. A session that installs definitions
nowhere but in scopes that put the former one back has the same definition installed after every
step, however the evaluations end.

## Main definitions

* `Assembly.Steady`: a step of assembling adds only steady definitions.
* `Expr.confines`, `Step.confines`: definitions are installed only in scopes that put the former
  one back.
* `Session.Steady`: nothing that can be called installs a definition outside of such a scope.

## Main statements

* `Invariant.steady`: what is made from steady seeds is steady.
* `Expr.steady_eval`: the program of an expression is steady.
* `Session.Steady.step`, `Session.Steady.run`: what one step preserves, and all of them.
* `Session.ambient_restored`: what is installed after a session, and after each scope.
-/

namespace EffectLayers

/-- From a catalog of steady definitions, a step adds only such; its result, if it is not
refused, has a property. -/
def Assembly.Steady {α : Type 1} (m : Assembly α) (P : α → Prop) : Prop :=
  ∀ c : Catalog, c.Steady → (m c).2.Steady ∧ ∀ a, (m c).1 = .ok a → P a

/-! ## Ready-made effects -/

namespace Effects

theorem steady_identity : identity.Steady :=
  ⟨fun op f hf => Operation.steady_iff.mpr (of_identity .steady op f hf), nofun⟩

theorem steady_onArgument (name : String) (a : Value) {f : Callback} (hf : f.Steady) :
    (onArgument name a f).Steady false := by
  unfold onArgument
  split
  · exact (hf.call _).keeping _
  · trivial

theorem steady_either : either.Steady := by
  refine ⟨fun op f hf => ?_, nofun⟩
  cases op with
  | pure | coerce | raise => exact Option.some.inj hf ▸ fun v => trivial
  | bind | handle => exact Option.some.inj hf ▸ fun a f hf => steady_onArgument _ a hf
  | _ => cases hf

theorem steady_bindEach {f : Callback} (hf : f.Steady) (found vs : List Value) :
    (bindEach f found vs).Steady false := by
  induction vs generalizing found with
  | nil => trivial
  | cons v vs ih =>
    refine (((hf.call v).keeping _).keeping _).bind fun r => ?_
    exact r.steady_asList.bind fun results => ih _

theorem steady_results : results.Steady := by
  refine ⟨fun op f hf => ?_, nofun⟩
  cases op with
  | pure | coerce => exact Option.some.inj hf ▸ fun v => trivial
  | bind =>
    exact Option.some.inj hf ▸ fun a f hf =>
      a.steady_asList.bind fun vs => (steady_bindEach hf [] vs).bind fun _ => trivial
  | plus =>
    exact Option.some.inj hf ▸ fun a b =>
      a.steady_asList.bind fun _ => b.steady_asList.bind fun _ => trivial
  | empty => exact Option.some.inj hf ▸ trivial
  | _ => cases hf

theorem steady_unbox (a : Value) : (unbox a).Steady false := by
  unfold unbox
  split <;> trivial

theorem steady_boxed : boxed.Steady := by
  refine ⟨fun op f hf => ?_, nofun⟩
  cases op with
  | pure => exact Option.some.inj hf ▸ fun v => trivial
  | join => exact Option.some.inj hf ▸ steady_unbox
  | map =>
    exact Option.some.inj hf ▸ fun a f hf =>
      (steady_unbox a).bind fun v => (hf.call v).bind fun _ => trivial
  | _ => cases hf

theorem steady_forParFrom {test : Test} {body step : Callback}
    (htest : ∀ v, (test.code v).Steady false) (hbody : body.Steady) (hstep : step.Steady)
    (n : Nat) (v : Value) : (forParFrom test body step n v).Steady false := by
  induction n generalizing v with
  | zero => trivial
  | succ n ih =>
    refine (((htest v).holding _).keeping _).bind fun holds => ?_
    cases holds with
    | false => trivial
    | true =>
      refine ((hbody.call v).keeping _).bind fun result => ?_
      split
      · trivial
      · exact ((hstep.call v).keeping _).bind ih

theorem steady_iterateFrom {body : Callback} (hbody : body.Steady) (n : Nat) (v : Value) :
    (iterateFrom body n v).Steady false := by
  induction n generalizing v with
  | zero => trivial
  | succ n ih =>
    refine (hbody.call v).bind fun result => ?_
    split
    · trivial
    · exact ih result

end Effects

/-! ## Expressions -/

namespace Expr

mutual

/-- Definitions are installed only in scopes that put the former one back, and not by function
values; anywhere else too if the expression is `free` to. -/
def confines (free : Bool) : Expr → Bool
  | lit _ | var _ | mute _ | current | drop _ | showDefinition _ | same .. => true
  | install _ => free
  | fn _ body => body.confines false
  | within _ e => e.confines true
  | ctor _ e | unary _ e | outcome e | attempt e => e.confines free
  | execute _ f | lift _ f => f.confines free
  | bind _ e body => e.confines free && body.confines free
  | cond test yes no => test.confines free && yes.confines free && no.confines free
  | case e _ _ yes no => e.confines free && yes.confines free && no.confines free
  | binary _ a b => a.confines free && b.confines free
  | fold l init f => l.confines free && init.confines free && f.confines free
  | method _ self args => self.confines free && confinesAll free args
  | list es | text es | steps es | request _ _ es => confinesAll free es

def confinesAll (free : Bool) : List Expr → Bool
  | [] => true
  | e :: es => e.confines free && confinesAll free es

end

end Expr

/-! ### Operators -/

theorem Value.steady_checked (shape : Shape) (v : Value) : (v.checked shape).Steady false := by
  unfold Value.checked
  split <;> trivial

theorem Value.steady_asCursor (v : Value) : v.asCursor.Steady false := by cases v <;> trivial

theorem Value.steady_settle (v : Value) : v.settle.Steady false := by
  unfold Value.settle
  split <;> trivial

theorem Value.steady_ofItem (s : SequenceId) (position : Nat) :
    (ofItem s position).Steady false := by
  refine .bind (Prog.steady_query rfl) fun item => ?_
  cases item with
  | none => trivial
  | some element => exact .bind (Prog.steady_query rfl) fun _ => trivial

theorem Value.steady_pull (v : Value) : v.pull.Steady false := by
  cases v with
  | cursor i element s position => exact steady_ofItem s (position + 1)
  | _ => trivial

theorem Value.steady_cursorOfList (items : List Value) : (cursorOfList items).Steady false :=
  .bind (Prog.steady_query rfl) fun s => steady_ofItem s 0

theorem Value.steady_cursorOfSource (source : Iterator) :
    (cursorOfSource source).Steady false :=
  .bind (Prog.steady_query rfl) fun s => steady_ofItem s 0

theorem Value.steady_distinctKeys (entries : List Value) :
    (distinctKeys entries).Steady false := by
  refine .bind ?_ fun keys => trivial
  unfold List.filterMapM
  generalize ([] : List String) = acc
  induction entries generalizing acc with
  | nil => trivial
  | cons entry entries ih =>
    unfold List.filterMapM.loop
    refine .bind ?_ fun r => ?_
    · split
      · trivial
      · refine entry.steady_asList.bind fun parts => ?_
        split
        · exact (Value.steady_asString _).bind fun _ => trivial
        · trivial
    · cases r with
      | none => exact ih acc
      | some key => exact ih (key :: acc)

theorem Source.steady_ofCursor (cursor : Value) : (Source.ofCursor cursor).Steady := by
  refine ⟨trivial, fun at_ _ => ?_⟩
  cases at_ with
  | cursor i element s position =>
    exact (Value.steady_pull (.cursor i element s position)).bind fun _ => trivial
  | _ => trivial

theorem Source.steady_unfold (state f : Value) : (Source.unfold state f).Steady :=
  ⟨trivial, fun _ _ => (Prog.steady_call f _).bind Value.steady_asStep⟩

theorem Prog.steady_definitionNamed (name : String) : (definitionNamed name).Steady false :=
  .bind (steady_query rfl) fun _ => steady_ofOption _

theorem Prog.steady_describe (d : DefId) : (describe d).Steady false :=
  .bind (steady_query rfl) fun _ => steady_ofOption _

theorem Prog.steady_nameOf (d : Option DefId) : (nameOf d).Steady false := by
  cases d with
  | none => trivial
  | some d => exact (steady_describe d).bind fun _ => trivial

theorem Unary.steady_apply (op : Unary) (v : Value) : (op.apply v).Steady false := by
  cases op with
  | exception | isUnit | isSignal | isException | throw => trivial
  | escape | only | display | structural => exact .bind (Prog.steady_query rfl) fun _ => trivial
  | carry name =>
    exact .bind (Prog.steady_query rfl) fun b => .bind (Prog.steady_ofOption b) fun _ => trivial
  | as shape => exact v.steady_checked shape
  | payload => cases v <;> trivial
  | inner => exact v.steady_asCarried
  | not => exact v.steady_asBool.bind fun _ => trivial
  | length => exact v.steady_asList.bind fun _ => trivial
  | vec => exact v.steady_asList.bind Value.steady_cursorOfList
  | keys =>
    exact v.steady_asList.bind fun items =>
      (Value.steady_distinctKeys items).bind Value.steady_cursorOfList
  | buffer => exact v.steady_asList.bind fun items => Value.steady_cursorOfSource _
  | element => exact v.steady_asCursor.bind fun _ => trivial
  | pull => exact v.steady_asCursor.bind Value.steady_pull
  | effects =>
    exact v.steady_asCursor.bind fun cursor => (Source.steady_ofCursor cursor).generator cursor
  | log => exact .bind (Prog.steady_query rfl) fun _ => trivial
  | record => exact .bind (Prog.steady_query rfl) fun _ => Ambient.steady_invoke ..
  | settle => exact v.steady_settle

theorem Binary.steady_check (op : Binary) (v : Value) : (op.check v).Steady false := by
  cases op with
  | add | sub | mul | less | range => exact v.steady_asInt.bind fun _ => trivial
  | nth | append => exact v.steady_asList.bind fun _ => trivial
  | replicate => exact v.steady_asString.bind fun _ => trivial
  | _ => trivial

theorem Binary.steady_apply (op : Binary) (a b : Value) : (op.apply a b).Steady false := by
  cases op with
  | add | sub | mul | less | range =>
    exact a.steady_asInt.bind fun _ => b.steady_asInt.bind fun _ => trivial
  | equal => trivial
  | call => exact Prog.steady_call a b
  | nth => exact a.steady_asList.bind fun _ => b.steady_asInt.bind fun _ => trivial
  | append => exact a.steady_asList.bind fun _ => b.steady_asList.bind fun _ => trivial
  | replicate => exact a.steady_asString.bind fun _ => b.steady_asInt.bind fun _ => trivial
  | unfold => exact (Source.steady_unfold a b).generator a
  | mapYields => exact ((Source.steady_ofValue a).mapYields b.steady_callback).generator a
  | andThen =>
    refine .bind ?_ fun f => Ambient.steady_invoke ..
    exact (Closure.steady_ignoring (f := b.callback.map fun code => code .unit)
      (Prog.steady_call b .unit)).reify

/-! ### Evaluation -/

namespace Expr

theorem steady_target (d : Option String) : (target d).Steady false := by
  cases d with
  | none => exact Ambient.steady_definition
  | some name => exact Prog.steady_definitionNamed name

theorem steady_perform (d : Option String) (r : Request) (args : List Value) :
    (perform d r args).Steady false := by
  have htarget : Prog.Steady false (do DefId.request (← target d) r args) :=
    (steady_target d).bind fun _ _ => trivial
  unfold perform
  refine Prog.Steady.keeping _ ?_
  split
  · exact .bind (.bind (Value.steady_asList _) fun _ => trivial) fun _ => htarget
  · exact .bind (.bind (Value.steady_asList _) fun _ => trivial) fun _ => htarget
  · exact htarget

theorem steady_foldItems (f acc : Value) (vs : List Value) : (foldItems f acc vs).Steady false := by
  induction vs generalizing acc with
  | nil => trivial
  | cons v vs ih => exact ((Prog.steady_call f _).keeping _).bind ih

theorem steady_attempt {free : Bool} {p : Prog Value} (hp : p.Steady free) :
    (Ambient.attempt p).Steady free := by
  refine Ambient.steady_definition.mono.bind fun d => Prog.Steady.holding _ ?_
  refine hp.outcome.bind fun r => ?_
  cases r with
  | ok v => exact (DefId.steady_invoke ..).mono
  | error fault => exact .bind (Prog.steady_query rfl) fun _ => (DefId.steady_invoke ..).mono

mutual

/-- The program of an expression is steady. -/
theorem steady_eval {free : Bool} (env : Env) :
    (e : Expr) → e.confines free = true → (e.eval env).Steady free
  | lit v, _ => trivial
  | var x, _ => Prog.steady_ofOption _
  | bind x e body, h => by
    simp only [confines, Bool.and_eq_true] at h
    exact (steady_eval env e h.1).bind fun v => (steady_eval _ body h.2).keeping _
  | steps es, h => (steady_evalAll env es h).bind fun _ => trivial
  | cond test yes no, h => by
    simp only [confines, Bool.and_eq_true] at h
    refine (steady_eval env test h.1.1).bind fun v => v.steady_asBool.mono.bind fun t => ?_
    cases t with
    | false => exact steady_eval env no h.2
    | true => exact steady_eval env yes h.1.2
  | fn x body, h => ⟨fun v => (steady_eval _ body h).keeping _, fun _ => trivial⟩
  | case e name x yes no, h => by
    simp only [confines, Bool.and_eq_true] at h
    refine (steady_eval env e h.1.1).bind fun v => Prog.Steady.keeping _ ?_
    split
    · exact steady_eval _ yes h.1.2
    · exact steady_eval env no h.2
  | list es, h => (steady_evalAll env es h).bind fun _ => trivial
  | ctor name e, h => (steady_eval env e h).bind fun _ => trivial
  | mute label, _ => .bind (Prog.steady_query rfl) fun _ => trivial
  | unary op e, h => (steady_eval env e h).bind fun v => (op.steady_apply v).mono
  | binary op a b, h => by
    simp only [confines, Bool.and_eq_true] at h
    refine (steady_eval env a h.1).bind fun v => (op.steady_check v).mono.bind fun _ => ?_
    exact ((steady_eval env b h.2).keeping _).bind fun u => (op.steady_apply v u).mono
  | text es, h =>
    (steady_evalAll env es h).bind fun _ => .bind (Prog.steady_query rfl) fun _ => trivial
  | fold l init f, h => by
    simp only [confines, Bool.and_eq_true] at h
    refine (steady_eval env l h.1.1).bind fun l => l.steady_asList.mono.bind fun items => ?_
    refine ((steady_eval env init h.1.2).keeping _).bind fun start => ?_
    refine (((steady_eval env f h.2).keeping _).keeping _).bind fun f => ?_
    exact (steady_foldItems f start items).mono.keeping _
  | outcome e, h => by
    refine (steady_eval env e h).outcome.bind fun r => ?_
    cases r with
    | ok v => trivial
    | error fault => exact .bind (Prog.steady_query rfl) fun _ => trivial
  | attempt e, h => steady_attempt (steady_eval env e h)
  | request d r args, h =>
    (steady_evalAll env args h).bind fun args => (steady_perform d r args).mono
  | method m self args, h => by
    simp only [confines, Bool.and_eq_true] at h
    refine (steady_eval env self h.1).bind fun self => ?_
    refine ((steady_evalAll env args h.2).keeping _).bind fun args => ?_
    exact (Value.steady_method m self args).mono.keeping _
  | current, _ => .bind (Prog.steady_query rfl) fun d => (Prog.steady_nameOf d).mono
  | install none, h => ⟨fun _ => h, fun d => (Prog.steady_nameOf d).mono⟩
  | install (some name), h =>
    (Prog.steady_definitionNamed name).mono.bind fun d =>
      ⟨fun _ => h, fun d => (Prog.steady_nameOf d).mono⟩
  | within name e, h =>
    (Prog.steady_definitionNamed name).mono.bind fun d => (steady_eval env e h).installed d
  | execute name f, h =>
    (steady_eval env f h).bind fun thunk => (Prog.steady_definitionNamed name).mono.bind fun d =>
      (DefId.steady_invoke d .run [thunk]).mono.installed d
  | lift name f, h =>
    (steady_eval env f h).bind fun f => (Prog.steady_definitionNamed name).mono.bind fun d =>
      ⟨fun v => (Prog.steady_call f v).installed d, fun _ => trivial⟩
  | drop name, _ => by
    refine .bind (Prog.steady_query rfl) fun was => ?_
    cases was <;> trivial
  | showDefinition name, _ =>
    (Prog.steady_definitionNamed name).mono.bind fun d =>
      (Prog.steady_describe d).mono.bind fun _ => trivial
  | same d e, _ =>
    (Prog.steady_definitionNamed d).mono.bind fun _ =>
      (Prog.steady_definitionNamed e).mono.bind fun _ => trivial

theorem steady_evalAll {free : Bool} (env : Env) :
    (es : List Expr) → confinesAll free es = true → (evalAll env es).Steady free
  | [], _ => trivial
  | e :: es, h => by
    simp only [confinesAll, Bool.and_eq_true] at h
    refine (steady_eval env e h.1).bind fun v => ?_
    exact ((steady_evalAll env es h.2).keeping _).bind fun _ => trivial

end

end Expr

/-! ## Making definitions -/

/-- Every way of making definitions makes steady ones, given expressions that install definitions
only in scopes that put the former one back. -/
def Invariant.steady : Invariant where
  definition := Definition.Steady
  seed := Seed.Steady
  operation op f := op.Steady f
  body e := e.confines false = true
  made h hd := h.definition? hd
  set h hf := h.set _ hf
  override env op params he := by
    refine Operation.steady_ofBody (fun args => ?_) op
    split
    · exact Expr.steady_eval _ _ he
    · trivial
  escape h := h.escape
  carrier brand h := h.carrier brand
  coercion h := h.coercion
  context mode self h := h.context mode self
  base h hb := h.base hb
  given layer reinstall h := by
    refine ⟨fun op f hf => ?_, h.onBase rfl⟩
    dsimp only at hf
    split at hf
    · exact Option.some.inj hf ▸ h.table op
    · cases hf
  nothing _ := ⟨nofun, nofun⟩
  identity := Effects.steady_identity
  either := Effects.steady_either
  results := Effects.steady_results
  boxed := Effects.steady_boxed
  forPar _ _ _ v htest hbody hstep :=
    Prog.Steady.holding (p := .bounded _) _ fun n =>
      Effects.steady_forParFrom htest hbody hstep n v
  iterate _ v hbody n := Effects.steady_iterateFrom hbody n v

/-! ## Steps -/

/-- The expressions of a seed install definitions only in scopes that put the former one back. -/
def SeedExpr.confines : SeedExpr → Bool
  | override seed _ _ body => seed.confines && body.confines false
  | _ => true

def Recipe.confines : Recipe → Bool
  | options s _ | toml s _ | layers s _ => s.confines
  | on .. => true

theorem SeedExpr.bodies_of_confines (e : SeedExpr) (h : e.confines = true) :
    e.Bodies fun body => body.confines false = true := by
  induction e with
  | override seed op params body ih =>
    simp only [confines, Bool.and_eq_true] at h
    exact ⟨ih h.1, h.2⟩
  | _ => trivial

theorem Recipe.bodies_of_confines (r : Recipe) (h : r.confines = true) :
    r.Bodies fun body => body.confines false = true := by
  cases r with
  | options e _ | toml e _ | layers e _ => exact e.bodies_of_confines h
  | on => trivial

/-- The expressions of a step install definitions only in scopes that put the former one back,
and not by function values; an evaluation may install them anywhere else if it is `free` to. -/
def Step.confines (free : Bool) : Step → Bool
  | define _ r => r.confines
  | showSeed s => s.confines
  | eval e _ => e.confines free
  | grid e => e.confines false
  | _ => true

/-- Nothing that can be called installs a definition outside of scopes that put the former one
back; any definition may be installed. -/
structure Session.Steady (s : Session) : Prop where
  catalog : s.catalog.Steady
  world : s.world.Steady

theorem Catalog.steady_empty : Catalog.empty.Steady := by
  intro i d hd
  simp [get?, empty] at hd

theorem World.steady_empty : World.empty.Steady := by
  intro i f hf
  simp [empty] at hf

theorem Session.steady_empty : Session.empty.Steady :=
  ⟨Catalog.steady_empty, World.steady_empty⟩

namespace Session

variable {s : Session}

theorem Steady.seed? (h : s.Steady) {e : SeedExpr} (he : e.confines = true)
    {assembly : Assembly Seed} (ha : s.seed? e = some assembly) :
    assembly.Steady Seed.Steady :=
  Invariant.keeps_seed? (I := .steady) h.catalog (e.bodies_of_confines he) ha

theorem Steady.recipe? (h : s.Steady) {r : Recipe} (hr : r.confines = true)
    {assembly : Assembly Definition} (ha : s.recipe? r = some assembly) :
    assembly.Steady Definition.Steady :=
  Invariant.keeps_recipe? (I := .steady) h.catalog (r.bodies_of_confines hr) ha

/-- The later session is steady and, unless the steps between were free to install another one,
has the same definition installed. -/
structure Keeps (free : Bool) (s s' : Session) : Prop where
  steady : s'.Steady
  ambient : free = false → s'.world.ambient = s.world.ambient

namespace Keeps

variable {free : Bool}

theorem refl (h : s.Steady) : s.Keeps free s := ⟨h, fun _ => rfl⟩

theorem trans {s' s'' : Session} (h : s.Keeps free s') (h' : s'.Keeps free s'') :
    s.Keeps free s'' :=
  ⟨h'.steady, fun hfree => (h'.ambient hfree).trans (h.ambient hfree)⟩

end Keeps

variable {free : Bool}

/-- Running a steady program, to whatever result. -/
theorem Steady.evaluate (h : s.Steady) {p : Prog Value} (hp : p.Steady free)
    {r : Except Fault Value × Answer × Session} (hr : s.evaluate p = some r) :
    s.Keeps free r.2.2 := by
  simp only [Session.evaluate] at hr
  split at hr
  · cases hr
  · rename_i result w hrun
    obtain rfl := Option.some.inj hr
    have hw : World.Steady { s.world with log := #[] } := h.world
    obtain ⟨hsteady, hambient⟩ := (hp.keeping _).run h.catalog.answer hw hrun
    exact ⟨⟨h.catalog, hsteady⟩, hambient⟩

theorem Steady.onEach (h : s.Steady) {e : Expr} (he : e.confines false = true)
    {ds : List Definition} {answers : List (String × Answer)} {s' : Session}
    (hr : onEach e ds s = some (answers, s')) : s.Keeps free s' := by
  refine preserved_onEach (P := s.Keeps free) (fun d u r hu hevaluate => ?_) (.refl h) hr
  have hthunk : Closure.Steady { code := fun _ => e.eval u.env } :=
    fun _ => Expr.steady_eval u.env e he
  have hprogram : Prog.Steady false (do
      DefId.execute d.id (← Closure.reify { code := fun _ => e.eval u.env })) :=
    hthunk.reify.bind fun thunk => (DefId.steady_invoke d.id .run [thunk]).mono.installed d.id
  exact hu.trans (hu.steady.evaluate hprogram.mono hevaluate)

/-- A step that assembles something. -/
theorem Steady.assembling (h : s.Steady) {α : Type 1} {assembly : Assembly α} {P : α → Prop}
    (ha : assembly.Steady P) {report : Session → α → Reply × Session}
    (hreport : ∀ (t : Session) a, t.Steady → P a → t.Keeps free (report t a).2) :
    s.Keeps free (s.assembling assembly report).2 := by
  obtain ⟨hcatalog, hresult⟩ := ha s.catalog h.catalog
  unfold Session.assembling
  rcases hassembly : assembly s.catalog with ⟨e | a, c⟩ <;> rw [hassembly] at hcatalog hresult
  · exact ⟨⟨hcatalog, h.world⟩, fun _ => rfl⟩
  · have ht : Steady { s with catalog := c } := ⟨hcatalog, h.world⟩
    have hkept := hreport { s with catalog := c } a ht (hresult a rfl)
    exact ⟨hkept.steady, hkept.ambient⟩

/-- What one step preserves. -/
theorem Steady.step (h : s.Steady) {t : Step} (ht : t.confines free = true)
    {r : Reply × Session} (hr : s.step t = some r) : s.Keeps free r.2 := by
  cases t with
  | define name recipe =>
    obtain ⟨assembly, ha, rfl⟩ := Option.map_eq_some_iff.mp hr
    refine h.assembling (h.recipe? ht ha) fun u d hu _ => ?_
    exact ⟨⟨hu.catalog, hu.world⟩, fun _ => rfl⟩
  | showSeed e =>
    obtain ⟨assembly, ha, rfl⟩ := Option.map_eq_some_iff.mp hr
    exact h.assembling (h.seed? ht ha) fun u seed hu _ => .refl hu
  | freshBrand name title =>
    obtain rfl := Option.some.inj hr
    exact ⟨⟨h.catalog, h.world⟩, fun _ => rfl⟩
  | brandOf name definition =>
    obtain ⟨brand, -, rfl⟩ := Option.map_eq_some_iff.mp hr
    exact ⟨⟨h.catalog, h.world⟩, fun _ => rfl⟩
  | adopt name definition =>
    obtain ⟨brand, -, hrest⟩ := Option.bind_eq_some_iff.mp hr
    obtain ⟨d, -, rfl⟩ := Option.map_eq_some_iff.mp hrest
    exact ⟨⟨h.catalog, h.world⟩, fun _ => rfl⟩
  | drop name =>
    simp only [Session.step] at hr
    split at hr
    · rename_i world hforget
      obtain rfl := Option.some.inj hr
      obtain rfl := (Prod.mk.inj hforget).2
      exact ⟨⟨h.catalog, h.world⟩, fun _ => rfl⟩
    · cases hr
  | readOptions text =>
    simp only [Session.step] at hr
    split at hr <;> exact Option.some.inj hr ▸ .refl h
  | eval e x =>
    obtain ⟨⟨result, a, after⟩, hevaluate, rfl⟩ := Option.map_eq_some_iff.mp hr
    have hkept := h.evaluate (Expr.steady_eval s.env e ht) hevaluate
    cases result with
    | error e => exact hkept
    | ok v =>
      cases x with
      | none => exact hkept
      | some x => exact ⟨⟨hkept.steady.catalog, hkept.steady.world⟩, hkept.ambient⟩
  | grid e =>
    obtain ⟨hcatalog, hds⟩ := Invariant.keeps_grid (I := .steady) s.catalog h.catalog
    simp only [Session.step] at hr
    split at hr
    · rename_i ds c hgrid
      rw [hgrid] at hcatalog
      obtain ⟨⟨answers, after⟩, heach, rfl⟩ := Option.map_eq_some_iff.mp hr
      have hs : Steady { s with catalog := c } := ⟨hcatalog, h.world⟩
      have hkept : Keeps free _ _ := hs.onEach ht heach
      exact ⟨hkept.steady, hkept.ambient⟩
    · rename_i e c hgrid
      rw [hgrid] at hcatalog
      obtain rfl := Option.some.inj hr
      exact ⟨⟨hcatalog, h.world⟩, fun _ => rfl⟩

/-- What all steps preserve, each of them and those before it. -/
theorem Steady.run (h : s.Steady) {ts : List Step} (hts : ∀ t ∈ ts, t.confines free = true)
    {rs : List (Reply × Session)} (hr : Session.run ts s = some rs) :
    ∀ r ∈ rs, s.Keeps free r.2 :=
  preserved_run (P := s.Keeps free)
    (fun t ht _ _ hu hstep => hu.trans (hu.steady.step (hts t ht) hstep)) (.refl h) hr

end Session

/-! ## What is restored -/

theorem Installer.restores_around (a : Installer) {α : Type} (p : Prog α) :
    (a.around p).Restores := by
  refine (Prog.restores_query rfl).bind fun alive => ?_
  cases alive with
  | false => exact Prog.restores_done _
  | true => exact Prog.restores_installed _ p

theorem Expr.restores_within (env : Env) (name : String) (e : Expr) :
    ((within name e).eval env).Restores := by
  have hnamed : (Prog.definitionNamed name).Restores := by
    refine (Prog.restores_query rfl).bind fun d => ?_
    cases d with
    | none => exact Prog.restores_halt _
    | some d => exact Prog.restores_done _
  exact hnamed.bind fun d => Prog.restores_installed d _

/-- From whatever is installed, a session whose programs install definitions only in scopes
leaves it installed after every step, however the evaluations end; so does every program of an
expression, on its own or as a part of another one. A scope puts back what was installed before
whatever runs inside it: an expression with a definition installed, the thunk of `execute`, a
lifted function and every callback that a context layer wraps. -/
theorem Session.ambient_restored :
    (∀ (s : Session) (ts : List Step) (rs : List (Reply × Session)), s.Steady →
      (∀ t ∈ ts, t.confines false = true) → Session.run ts s = some rs →
      ∀ r ∈ rs, r.2.world.ambient = s.world.ambient) ∧
    (∀ (c : Catalog) (b : Nat) (w w' : World) (env : Env) (e : Expr) (r : Except Fault Value),
      c.Steady → w.Steady → e.confines false = true →
      (e.eval env).run c b w = .finished r w' → w'.ambient = w.ambient) ∧
    (∀ env name e, ((Expr.within name e).eval env).Restores) ∧
    (∀ (d : DefId) thunk, (d.execute thunk).Restores) ∧
    (∀ (d : DefId) f v, ((d.lifted f).code v).Restores) ∧
    ∀ (a : Installer) (α : Type) (p : Prog α), (a.around p).Restores := by
  refine ⟨?_, ?_, Expr.restores_within, ?_, ?_, fun a α => a.restores_around⟩
  · intro s ts rs hs hts hr r hmem
    exact (hs.run hts hr r hmem).ambient rfl
  · intro c b w w' env e r hc hw he hrun
    exact ((Expr.steady_eval env e he).run hc.answer hw hrun).2 rfl
  · exact fun d thunk => Prog.restores_installed d _
  · exact fun d f v => Prog.restores_installed d _

/-- Make a definition and install it. -/
def Session.installing : List Step :=
  [.define "d" (.layers .identity []), .eval (.install (some "d")) none]

/-- A fault with a definition installed. -/
def Expr.failing : Expr := .within "d" (.unary .throw (.lit .unit))

/-- A fault inside a scope, with a definition installed by a session before and without one. -/
theorem Session.ambient_restored_past_fault :
    (∃ before rs, ((Session.run installing .empty).bind List.getLast?).map (·.2) = some before ∧
      Session.run [.eval .failing none] before = some rs ∧
      before.world.ambient = some 0 ∧ ∀ r ∈ rs, r.2.world.ambient = some 0) ∧
    ∃ w w', (Expr.failing.eval []).run .empty 0 w = .finished (.error (.thrown .unit)) w' ∧
      w.ambient = none ∧ w'.ambient = none := by
  constructor
  · have hrun : ((((Session.run installing .empty).bind List.getLast?).map (·.2)).bind
        (Session.run [.eval .failing none])).isSome = true := by decide +kernel
    have hlast : (((Session.run installing .empty).bind List.getLast?).map (·.2)).map
        (fun s => s.world.ambient) = some (some 0) := by decide +kernel
    obtain ⟨before, hbefore, hambient⟩ := Option.map_eq_some_iff.mp hlast
    rw [hbefore] at hrun
    obtain ⟨rs, hrs⟩ := Option.isSome_iff_exists.mp hrun
    have hsteady : before.Steady := by
      obtain ⟨r, hr, rfl⟩ := Option.map_eq_some_iff.mp hbefore
      obtain ⟨rs₁, hrs₁, hr⟩ := Option.bind_eq_some_iff.mp hr
      have hfree : ∀ t ∈ installing, t.confines true = true := by decide
      exact (Session.steady_empty.run hfree hrs₁ r (List.mem_of_getLast? hr)).steady
    refine ⟨before, rs, hbefore, hrs, hambient, fun r hr => ?_⟩
    rw [← hambient]
    exact Session.ambient_restored.1 before _ rs hsteady (by decide) hrs r hr
  · let w : World := { World.empty with names := [("d", 0)] }
    have hw : w.Steady := World.steady_empty
    exact ⟨w, _, rfl, rfl, Session.ambient_restored.2.1 .empty 0 w _ [] .failing _
      Catalog.steady_empty hw rfl rfl⟩

end EffectLayers
