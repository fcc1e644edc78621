import EffectLayers.Proofs.Layer.Alternatives
import EffectLayers.Proofs.Layer.Exceptions
import EffectLayers.Proofs.Program.InUse

/-!
# Branches

On lists of results every operation that goes on with them distributes over alternatives: it goes
on with one alternative after the other, and whatever happens in one of them, a signal, a handler
or a cleanup, leaves the others alone.

## Main definitions

* `Continuation`: an operation that goes on with the results of an effect value.
* `Prog.each`: an operation on one alternative after the other.
* `Definition.Distributes`: an operation distributes over alternatives.

## Main statements

* `Effects.resultsOf_append`, `Effects.resultsOf_flatten`: the results of a list are those of its
  parts.
* `Wrapping.GoesOn.distributes`: what goes on with lists distributes over their concatenation.
* `Effects.branches_apart`: on lists of results under every layer, every operation that goes on
  with them distributes over alternatives.
-/

namespace EffectLayers

open Value (referencesAll)

/-! ## Results of the parts of a list -/

/-- Whether a value is a list is known at once, so nothing is held for it. -/
theorem Prog.Same.asList_bind {α β : Type} {us : List Value} {k : List Value → Prog β}
    {l : List Value → Prog α} {m : α → Prog β}
    (h : ∀ vs, (k vs).Same (Prog.keeping us (l vs) >>= m)) (v : Value) :
    (v.asList >>= k).Same (Prog.keeping us (v.asList >>= l) >>= m) := by
  obtain ⟨r, hr⟩ : ∃ r, v.asList = .done r := by cases v <;> exact ⟨_, rfl⟩
  rw [hr]
  cases r with
  | ok vs => exact h vs
  | error e => exact ((Prog.Alike.inside_done _ (.error e)).bind_left m).same.symm

namespace Effects

/-- One more item in front, where `us` is held around the walk on one side: the callback is called
on it while the same is held on both sides, and the rest is as before. -/
theorem bindEach_cons {found found' xs zs us : List Value}
    {m : List Value → Prog (List Value)} (x : Value)
    (hrefs : ∀ r, r ∈ referencesAll (found ++ zs) ↔ r ∈ referencesAll (us ++ (found' ++ xs)))
    (hrest : ∀ vs : List Value, (bindEach f (vs.reverse ++ found) zs).Same
      (Prog.keeping us (bindEach f (vs.reverse ++ found') xs) >>= m)) :
    (bindEach f found (x :: zs)).Same (Prog.keeping us (bindEach f found' (x :: xs)) >>= m) := by
  have hhead : (Prog.keeping found (Prog.keeping zs (f.call x))).Same
      (Prog.keeping us (Prog.keeping found' (Prog.keeping xs (f.call x)))) :=
    calc
      Prog.keeping found (Prog.keeping zs (f.call x))
      Prog.Same _ (Prog.keeping (found ++ zs) (f.call x)) := .keeping_keeping _ _ _
      Prog.Same _ (Prog.keeping (us ++ (found' ++ xs)) (f.call x)) := .keeping hrefs (.refl _)
      Prog.Same _ (Prog.keeping us (Prog.keeping (found' ++ xs) (f.call x))) :=
        .symm (.keeping_keeping _ _ _)
      Prog.Same _ _ := .keeping (fun _ => .rfl) (.symm (.keeping_keeping _ _ _))
  refine (Prog.Same.bind hhead (.asList_bind hrest)).trans ?_
  rw [← bind_assoc]
  exact (Prog.Same.holding_bind _ _ _).symm.bind_left m

/-- The items are gone through one part after the other; what is yet to come is held
meanwhile. -/
theorem bindEach_append (f : Callback) (found xs ys : List Value) :
    (bindEach f found (xs ++ ys)).Same
      (Prog.keeping ys (bindEach f found xs) >>= fun found => bindEach f found ys) := by
  induction xs generalizing found with
  | nil =>
    have hdone : (Prog.keeping ys (bindEach f found [])).Alike (bindEach f found []) :=
      .inside_done _ _
    exact (hdone.bind_left fun found => bindEach f found ys).same.symm
  | cons x xs ih =>
    rw [List.cons_append]
    refine bindEach_cons x (fun r => ?_) fun vs => ih (vs.reverse ++ found)
    grind [Value.referencesAll_append]

/-- What was found before only stays in front, and is held meanwhile. -/
theorem bindEach_found (f : Callback) (found xs : List Value) :
    (bindEach f found xs).Same
      (Prog.keeping found (bindEach f [] xs) >>= fun more => pure (more ++ found)) := by
  induction xs generalizing found with
  | nil =>
    have hdone : (Prog.keeping found (bindEach f [] [])).Alike (bindEach f [] []) :=
      .inside_done _ _
    exact (hdone.bind_left fun more => pure (more ++ found)).same.symm
  | cons x xs ih =>
    refine bindEach_cons x (fun _ => .rfl) fun vs => ?_
    -- What the item gives is found before the rest, with what was found already or without it.
    have hheld : (Prog.keeping (vs.reverse ++ found) (bindEach f [] xs)).Same
        (Prog.keeping found (Prog.keeping (vs.reverse ++ []) (bindEach f [] xs))) := by
      refine .trans (.keeping (fun r => ?_) (.refl _)) (Prog.Same.keeping_keeping _ _ _).symm
      grind [Value.referencesAll_append]
    have hmore : (Prog.keeping found (bindEach f (vs.reverse ++ []) xs)).Same
        (do return (← Prog.keeping found (Prog.keeping (vs.reverse ++ []) (bindEach f [] xs)))
          ++ (vs.reverse ++ [])) :=
      .keeping_map (fun _ => .rfl) (ih _)
    refine (ih (vs.reverse ++ found)).trans ((hheld.bind_left _).trans ?_)
    refine .trans ?_ (hmore.symm.bind_left fun more => pure (more ++ found))
    simp only [bind_assoc, pure_bind, List.append_assoc, List.append_nil]
    exact .refl _

/-- The results of a callback on the items of a list, in order. -/
def resultsOf (f : Callback) (xs : List Value) : Prog (List Value) := do
  return (← bindEach f [] xs).reverse

theorem bind_list (xs : List Value) (f : Callback) :
    results.bind (.list xs) f = do return .list (← resultsOf f xs) := by
  simp only [resultsOf, bind_assoc, pure_bind]
  rfl

/-- The results of one part are found after those of the other; what is yet to come, and then what
was found, is held meanwhile. -/
theorem resultsOf_append (f : Callback) (xs ys : List Value) :
    (resultsOf f (xs ++ ys)).Same do
      let us ← Prog.keeping ys (resultsOf f xs)
      let vs ← Prog.keeping us (resultsOf f ys)
      return us ++ vs := by
  have hxs : (Prog.keeping ys (resultsOf f xs)).Same
      (do return (← Prog.keeping ys (bindEach f [] xs)).reverse) :=
    .keeping_map (fun _ => .rfl) (.refl _)
  have hys (found : List Value) : (Prog.keeping found.reverse (resultsOf f ys)).Same
      (do return (← Prog.keeping found (bindEach f [] ys)).reverse) :=
    .keeping_map (fun r => by simp [Value.mem_referencesAll]) (.refl _)
  calc
    resultsOf f (xs ++ ys)
    Prog.Same _ (do
        let found ← Prog.keeping ys (bindEach f [] xs)
        let more ← Prog.keeping found (bindEach f [] ys)
        return (more ++ found).reverse) := by
      refine ((bindEach_append f [] xs ys).bind_left _).trans ?_
      simp only [bind_assoc]
      refine .bind_right _ fun found => ((bindEach_found f found ys).bind_left _).trans ?_
      simp only [bind_assoc, pure_bind]
      exact .refl _
    Prog.Same _ _ := by
      refine .symm ((hxs.bind_left _).trans ?_)
      simp only [bind_assoc, pure_bind]
      refine .bind_right _ fun found => ((hys found).bind_left _).trans ?_
      simp only [bind_assoc, pure_bind, List.reverse_append]
      exact .refl _

/-- The results of a callback on one list after the other; what is yet to come is held meanwhile,
and so is what was found. -/
def resultsOfEach (f : Callback) : List (List Value) → Prog (List (List Value))
  | [] => pure []
  | xs :: xss => do
    let us ← Prog.keeping xss.flatten (resultsOf f xs)
    return us :: (← Prog.keeping us (resultsOfEach f xss))

theorem resultsOf_flatten (f : Callback) (xss : List (List Value)) :
    (resultsOf f xss.flatten).Same (do return (← resultsOfEach f xss).flatten) := by
  induction xss with
  | nil => exact .refl _
  | cons xs xss ih =>
    have hrest (us : List Value) : (Prog.keeping us (resultsOf f xss.flatten)).Same
        (do return (← Prog.keeping us (resultsOfEach f xss)).flatten) :=
      .keeping_map (fun _ => .rfl) ih
    refine (resultsOf_append f xs xss.flatten).trans ?_
    simp only [resultsOfEach, bind_assoc, pure_bind]
    refine .bind_right _ fun us => ((hrest us).bind_left _).trans ?_
    simp only [bind_assoc, pure_bind, List.flatten_cons]
    exact .refl _

end Effects

/-! ## Distributing over alternatives -/

/-- What the operation makes of one alternative after the other; the ones that are yet to come are
held meanwhile, and so is what it made. -/
def Prog.each (op : Value → Prog Value) : List Value → Prog (List Value)
  | [] => pure []
  | x :: xs => do
    let made ← Prog.keeping xs (op x)
    return made :: (← Prog.keeping [made] (each op xs))

/-- The operation distributes over alternatives. Both sides run alike from every world: they end in
the same result or fault, and leave the same log. -/
structure Definition.Distributes (d : Definition) (E : Value → Prop) (op : Value → Prog Value) :
    Prop where
  plus : ∀ {x y}, E x → E y →
    (d.table .plus x y >>= op).Same do
      let a ← Prog.keeping [y] (op x)
      let b ← Prog.keeping [a] (op y)
      d.table .plus a b
  empty : (d.table .empty >>= op).Same (d.table .empty)
  alt : ∀ xs, (∀ x ∈ xs, E x) →
    (d.table .alt xs >>= op).Same (Prog.each op xs >>= d.table .alt)

/-- An operation that goes on with the results of an effect value. -/
inductive Continuation where
  | bind (f : Callback)
  | map (f : Callback)
  | handle (f : Callback)
  | cleanup (f : Action)

namespace Continuation

/-- The operation of a definition. -/
def of (d : Definition) : Continuation → Value → Prog Value
  | bind f, a => d.table .bind a f
  | map f, a => d.table .map a f
  | handle f, a => d.table .handle a f
  | cleanup f, a => d.table .cleanup a f

variable {d e : Definition} {W : Wrapping}

/-- Under the layers it goes on in the same way. -/
theorem wraps (hW : d.Wraps e W) (k : Continuation) :
    ∃ k' : Continuation, ∀ a, (k.of d (W.wrap a)).Alike (W.wrapped (k'.of e a)) := by
  cases k with
  | bind f => exact ⟨.bind (W.callback f), fun a => hW.bind a f⟩
  | map f => exact ⟨.map f, fun a => hW.map a f⟩
  | handle f => exact ⟨.handle (W.callback f), fun a => hW.handle a f⟩
  | cleanup f => exact ⟨.cleanup (f.map W.enter), fun a => hW.cleanup a f⟩

/-- On lists of results with escape control every such operation is `bind` with some callback. -/
theorem eq_bind {i j : DefId} (hd : Effects.results.definition? i = some d)
    (he : (Escape.seed d).definition? j = some e) (k : Continuation) :
    ∃ f, ∀ a, k.of e a = Effects.results.bind a f := by
  obtain rfl := Option.some.inj hd
  obtain rfl := Option.some.inj he
  cases k <;> exact ⟨_, fun _ => rfl⟩

end Continuation

/-! ### Lists of results -/

section

open Effects

variable {d : Definition} {W : Wrapping} {op : Value → Prog Value} {f : Callback}

/-- A wrapped list of results. -/
def Wrapping.list (W : Wrapping) (xs : List Value) : Value := W.wrap (.list xs)

theorem Wrapping.exists_list {x : Value} (hx : W.Image (fun v => v.isList = true) x) :
    ∃ xs, x = W.list xs := by
  obtain ⟨a, ha, rfl⟩ := hx
  exact ⟨items a, congrArg W.wrap (eq_list_of_isList ha)⟩

theorem Wrapping.exists_map_list {xs : List Value}
    (hxs : ∀ x ∈ xs, W.Image (fun v => v.isList = true) x) :
    ∃ xss : List (List Value), xs = xss.map W.list := by
  obtain ⟨as, has, rfl⟩ := Wrapping.exists_map hxs
  refine ⟨as.map items, ?_⟩
  rw [List.map_map]
  exact List.map_congr_left fun a ha => congrArg W.wrap (eq_list_of_isList (has a ha))

namespace Definition.Sums

variable (h : d.Sums .atOnce (concatenation.wrapped W))

include h

theorem plus_list (us vs : List Value) :
    (d.table .plus (W.list us) (W.list vs)).Same (pure (W.list (us ++ vs))) := by
  have hplus := h.plus ⟨.list us, rfl, rfl⟩ ⟨.list vs, rfl, rfl⟩
  simp only [ValueMonoid.wrapped, Wrapping.unwrap_wrap] at hplus
  exact hplus.same

theorem empty_list : (d.table .empty).Same (pure (W.list [])) := h.empty.same

theorem alt_list (xss : List (List Value)) :
    (d.table .alt (xss.map W.list)).Same (pure (W.list xss.flatten)) := by
  have hsum : concatenation.sum (xss.map .list) = .list xss.flatten := by
    induction xss with
    | nil => rfl
    | cons xs xss ih => exact congrArg (concatenation.plus (.list xs)) ih
  have hmap : xss.map W.list = (xss.map Value.list).map W.wrap := List.map_map.symm
  have halt := h.alt (xss.map W.list) fun x hx => by
    obtain ⟨xs, -, rfl⟩ := List.mem_map.mp hx
    exact ⟨.list xs, rfl, rfl⟩
  rw [hmap, ValueMonoid.sum_wrapped, hsum, ← hmap] at halt
  exact halt.same

end Definition.Sums

/-- An operation that goes on with wrapped lists of results, as `bind` with the callback does. -/
structure Wrapping.GoesOn (W : Wrapping) (op : Value → Prog Value) (f : Callback) : Prop where
  op : ∀ a, (op (W.wrap a)).Alike (W.wrapped (results.bind a f))
  references : ∀ v, (W.wrap v).references = v.references

namespace Wrapping.GoesOn

variable (h : W.GoesOn op f)

include h

theorem referencesAll_list (xss : List (List Value)) :
    referencesAll (xss.map W.list) = referencesAll xss.flatten := by
  induction xss with
  | nil => rfl
  | cons xs xss ih =>
    simp only [List.map_cons, List.flatten_cons, referencesAll, Value.referencesAll_append, list,
      h.references, Value.references, ih]

theorem referencesAll_singleton (us : List Value) :
    referencesAll [W.list us] = referencesAll us := by
  simpa using h.referencesAll_list [us]

theorem on_list (xs : List Value) :
    (op (W.list xs)).Same (do return W.list (← resultsOf f xs)) := by
  refine (h.op (.list xs)).same.trans ?_
  rw [bind_list, Wrapping.wrapped]
  simp only [bind_assoc, pure_bind]
  exact .refl _

theorem keeping_list {held us : List Value} (hheld : referencesAll held = referencesAll us)
    (xs : List Value) : (Prog.keeping held (op (W.list xs))).Same
      (do return W.list (← Prog.keeping us (resultsOf f xs))) :=
  .keeping_map (fun _ => by rw [hheld]) (h.on_list xs)

theorem each_list (xss : List (List Value)) :
    (Prog.each op (xss.map W.list)).Same (do return (← resultsOfEach f xss).map W.list) := by
  induction xss with
  | nil => exact .refl _
  | cons xs xss ih =>
    have hrest (us : List Value) : (Prog.keeping [W.list us] (Prog.each op (xss.map W.list))).Same
        (do return (← Prog.keeping us (resultsOfEach f xss)).map W.list) :=
      .keeping_map (fun _ => by rw [h.referencesAll_singleton]) ih
    refine ((h.keeping_list (h.referencesAll_list xss) xs).bind_left _).trans ?_
    simp only [resultsOfEach, bind_assoc, pure_bind]
    refine .bind_right _ fun us => ((hrest us).bind_left _).trans ?_
    simp only [bind_assoc, pure_bind, List.map_cons]
    exact .refl _

/-- It distributes over alternatives that concatenate the lists. -/
theorem distributes (hd : d.Sums .atOnce (concatenation.wrapped W)) :
    d.Distributes (W.Image fun v => v.isList = true) op := by
  constructor
  case plus =>
    intro x y hx hy
    obtain ⟨xs, rfl⟩ := exists_list hx
    obtain ⟨ys, rfl⟩ := exists_list hy
    calc
      d.table .plus (W.list xs) (W.list ys) >>= op
      Prog.Same _ (op (W.list (xs ++ ys))) := (hd.plus_list xs ys).bind_left op
      Prog.Same _ (do return W.list (← resultsOf f (xs ++ ys))) := h.on_list _
      Prog.Same _ (do
          let us ← Prog.keeping ys (resultsOf f xs)
          let vs ← Prog.keeping us (resultsOf f ys)
          d.table .plus (W.list us) (W.list vs)) := by
        refine ((resultsOf_append f xs ys).bind_left _).trans ?_
        simp only [bind_assoc, pure_bind]
        exact .bind_right _ fun us => .bind_right _ fun vs => (hd.plus_list us vs).symm
      Prog.Same _ _ := by
        have hxs := h.keeping_list (h.referencesAll_singleton ys) xs
        have hys (us : List Value) := h.keeping_list (h.referencesAll_singleton us) ys
        refine .symm ((hxs.bind_left _).trans ?_)
        simp only [bind_assoc, pure_bind]
        refine .bind_right _ fun us => ((hys us).bind_left _).trans ?_
        simp only [bind_assoc, pure_bind]
        exact .refl _
  case empty =>
    calc
      d.table .empty >>= op
      Prog.Same _ (op (W.list [])) := hd.empty_list.bind_left op
      Prog.Same _ _ := (h.on_list []).trans hd.empty_list.symm
  case alt =>
    intro xs hxs
    obtain ⟨xss, rfl⟩ := exists_map_list hxs
    calc
      d.table .alt (xss.map W.list) >>= op
      Prog.Same _ (op (W.list xss.flatten)) := (hd.alt_list xss).bind_left op
      Prog.Same _ (do return W.list (← resultsOf f xss.flatten)) := h.on_list _
      Prog.Same _ (resultsOfEach f xss >>= fun uss => d.table .alt (uss.map W.list)) := by
        refine ((resultsOf_flatten f xss).bind_left _).trans ?_
        simp only [bind_assoc, pure_bind]
        exact .bind_right _ fun uss => (hd.alt_list uss).symm
      Prog.Same _ _ := by
        refine .symm (((h.each_list xss).bind_left _).trans ?_)
        simp only [bind_assoc, pure_bind]
        exact .refl _

end Wrapping.GoesOn

end

/-! ## Building -/

theorem Options.references_packed (o : Options) (d : Definition) (v : Value) :
    (o.packed d v).references = v.references := by
  unfold Options.packed Value.packed
  cases o.carrier <;> cases d.carrierBrand? <;> rfl

namespace Effects

theorem exists_build_results (o : Options) (c : Catalog) :
    ∃ d c', results.build o c = (.ok d, c') := by
  obtain ⟨escape, carrier, coercion, context, dispatch⟩ := o
  cases escape <;> cases carrier <;> cases coercion <;> cases context <;> cases dispatch <;>
    exact ⟨_, _, rfl⟩

/-- Lists of results can be built under every layer, and with escape control every operation that
goes on with them distributes over alternatives. Whatever its callback does, it does for one
alternative after the other. Where there is none, every callback gives the same, so none is
called. -/
theorem branches_apart {o : Options} (hescape : o.escape = true) (c : Catalog) :
    ∃ d c', results.build o c = (.ok d, c') ∧ ∀ k : Continuation,
      d.Distributes (fun v => ∃ a, a.isList = true ∧ v = o.packed d a) (k.of d) := by
  obtain ⟨d, c', hbuild⟩ := exists_build_results o c
  refine ⟨d, c', hbuild, fun k => ?_⟩
  obtain ⟨d₀, c₀, e, c₁, V, hcomplete, hescaping, hwraps, hV, -⟩ := Seed.build_wraps hbuild
  obtain ⟨W, hW, hsums⟩ := (givesSums_results (G := .atOnce)).build hbuild
  rw [hescape] at hescaping
  obtain ⟨i, hd₀⟩ := Seed.definition?_of_complete rfl hcomplete
  obtain ⟨j, he⟩ := Definition.definition?_of_withEscapeControl hescaping
  obtain ⟨k', hk'⟩ := k.wraps hwraps
  obtain ⟨f, hf⟩ := k'.eq_bind hd₀ he
  have hgoes : W.GoesOn (k.of d) f := by
    constructor
    case op =>
      intro a
      have hop := hk' a
      rw [hf, Wrapping.wrapped, hV, ← hW] at hop
      exact hop
    case references =>
      intro v
      rw [hW]
      exact o.references_packed d v
  exact hW ▸ hgoes.distributes hsums

/-- Lists under all of the layers: an exception in one alternative is handled there, and the other
one is left alone. -/
theorem branches_apart_wrapped :
    let o : Options := ⟨true, some "wrapped", true, .full, .home⟩
    o.escape = true ∧ ∃ d c, results.build o .empty = (.ok d, c) ∧
      (∀ k : Continuation,
        d.Distributes (fun v => ∃ a, a.isList = true ∧ v = o.packed d a) (k.of d)) ∧
      let x := o.packed d (.list [.signal (.int 1) .exception])
      let y := o.packed d (.list [.int 2])
      let twice : Callback := ⟨fun v => pure (o.packed d (.list [v, v])), { }⟩
      let handled : Prog Value := do d.table .handle (← d.table .plus x y) twice
      handled.answers c (.hosting d.id) (o.packed d (.list [.int 1, .int 1, .int 2])) = true := by
  intro o
  obtain ⟨d, c, hbuild, hshown⟩ := Seed.exists_of_builds (s := results) (o := o) (c := .empty)
    (T := fun d c =>
      let x := o.packed d (.list [.signal (.int 1) .exception])
      let y := o.packed d (.list [.int 2])
      let twice : Callback := ⟨fun v => pure (o.packed d (.list [v, v])), { }⟩
      let handled : Prog Value := do d.table .handle (← d.table .plus x y) twice
      handled.answers c (.hosting d.id) (o.packed d (.list [.int 1, .int 1, .int 2])))
    (by decide +kernel)
  obtain ⟨d', c', hbuild', hdistributes⟩ := branches_apart (o := o) rfl .empty
  rw [hbuild] at hbuild'
  cases hbuild'
  exact ⟨rfl, d, c, hbuild, hdistributes, hshown⟩

end Effects

end EffectLayers
