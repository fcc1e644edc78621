import EffectLayers.Proofs.Layer.Products

/-!
# Products of signals

Where signals are threaded through the results, a product that is derived is the first signal among
its items, if there is one, since `bind` and `map` skip their continuations. A definition that was
given an `arr` of its own keeps it under the layer, and that one collects signals like any other
result.

## Main definitions

* `Escape.skipping`: a callback that is skipped for signals.
* `Value.leftmost`: the first signal among values, or the list of them.

## Main statements

* `SequenceLaws.threaded`: the laws of sequencing, with signals.
* `Definition.threaded_products_iff`: which products short-circuit.
-/

namespace EffectLayers

variable {S : Setting} {P Q : Value → Prop}

/-- The first signal among the values; the list of all of them if there is none. -/
def Value.leftmost (vs : List Value) : Value := (vs.find? isSignal).getD (.list vs)

/-- A signal, or a value with the property. -/
def Value.OrSignal (P : Value → Prop) (v : Value) : Prop := v.isSignal = true ∨ P v

/-- A callback that is skipped for signals. -/
def Escape.skipping (pure : Value → Prog Value) (f : Callback) : Callback :=
  f.map fun code v => if v.isSignal then pure v else code v

open Escape

/-! ## Sequencing with signals -/

namespace SequenceLaws

variable {effect : (Value → Prop) → Value → Prop} {pure : Value → Prog Value}
  {bind map : Value → Callback → Prog Value} (h : SequenceLaws S effect pure bind)

include h

theorem skipping_equal {f g : Callback}
    (hfg : f.Equal S P (Unfailing S effect bind (Value.OrSignal Q)) g) :
    (skipping pure f).Equal S (Value.OrSignal P) (Unfailing S effect bind (Value.OrSignal Q))
      (skipping pure g) := by
  intro v hv
  by_cases hsignal : v.isSignal = true
  · simp only [skipping, Closure.code_map, if_pos hsignal]
    exact h.pure_unfailing (.inl hsignal)
  · simp only [skipping, Closure.code_map, if_neg hsignal]
    exact hfg v (hv.resolve_left hsignal)

/-- Skipping continuations for signals keeps the laws. -/
theorem threaded :
    CollectLaws S (fun P => Unfailing S effect bind (Value.OrSignal P)) pure
      fun a f => bind a (skipping pure f) where
  pure_equal hv := h.pure_unfailing (.inr hv)
  bind_equal ha hfg := h.bind_unfailing ha (h.skipping_equal hfg)
  left hv hf := h.left_unfailing (.inr hv) (h.skipping_equal hf)
  assoc {P Q R a f g} holds ha hf hg := by
    refine (h.collectLaws.assoc holds ha (h.skipping_equal hf) (h.skipping_equal hg)).trans
      (h.bind_unfailing ha fun v hv => ?_)
    by_cases hsignal : v.isSignal = true
    · -- A signal skips both continuations.
      have hleft := h.left_unfailing (P := Value.OrSignal Q) (.inl hsignal) (h.skipping_equal hg)
      simpa only [skipping, Closure.code_map, if_pos hsignal] using hleft
    · simp only [skipping, Closure.code_map, if_neg hsignal]
      exact (hf v (hv.resolve_left hsignal)).bind fun b hb =>
        h.bind_unfailing hb (h.skipping_equal hg)

/-- Skipping what is mapped for signals is to skip what continues with `pure`. -/
theorem threaded_maps (hmap : MapsResults S (Unfailing S effect bind) pure bind map) :
    MapsResults S (fun P => Unfailing S effect bind (Value.OrSignal P)) pure
      (fun a f => bind a (skipping pure f)) fun a f => map a (skipping Pure.pure f) where
  map_equal {P Q a f} ha hf := by
    have hskip : (skipping Pure.pure f).Equal S (Value.OrSignal P) (Value.OrSignal Q)
        (skipping Pure.pure f) := by
      intro v hv
      by_cases hsignal : v.isSignal = true
      · simp only [skipping, Closure.code_map, if_pos hsignal]
        exact .pure (.inl hsignal)
      · simp only [skipping, Closure.code_map, if_neg hsignal]
        exact (hf v (hv.resolve_left hsignal)).mono fun _ hu => .inr hu
    refine (hmap.map_equal ha hskip).trans (h.bind_unfailing ha fun v hv => ?_)
    have hafter := (hskip v hv).bind fun u hu => h.pure_unfailing (P := Value.OrSignal Q) hu
    by_cases hsignal : v.isSignal = true
    · simp only [skipping, Closure.code_map, if_pos hsignal] at hafter ⊢
      exact hafter
    · simp only [skipping, Closure.code_map, if_neg hsignal] at hafter ⊢
      exact hafter

/-! ## Items that are made by `pure` -/

/-- To go on after the value that `pure` makes. -/
theorem bind_made {u x : Value} {f : Callback} {q : Prog Value}
    (hx : (pure u).Computes S (.ok x)) (hf : (f.code u).Equal S (Unfailing S effect bind Q) q) :
    (bind x f).Equal S (Unfailing S effect bind Q) q := by
  have hf' : f.Equal S (· = u) (Unfailing S effect bind Q) f := by
    rintro _ rfl
    exact hf.left
  rcases (h.pure_unfailing (P := (· = u)) rfl).mem hx with hmem | hany
  · have hbind : Prog.Equal S (Unfailing S effect bind Q) (do bind (← pure u) f) (bind x f) :=
      .of_computes hx (h.bind_unfailing hmem hf')
    exact (hbind.symm.trans (h.left_unfailing (P := (· = u)) rfl hf')).trans hf
  · exact .of_any hany

variable {us xs : List Value}

/-- Values that `pure` makes are collected. -/
theorem nested_made (hxs : List.Forall₂ (fun u x => (pure u).Computes S (.ok x)) us xs)
    (vs : List Value) :
    (nested pure bind xs vs).Equal S (Unfailing S effect bind fun _ => True)
      (pure (.list (vs ++ us))) := by
  induction hxs generalizing vs with
  | nil =>
    rw [List.append_nil]
    exact h.pure_unfailing trivial
  | @cons u x us xs hx _ ih =>
    have hrest := ih (vs ++ [u])
    rw [List.append_assoc, List.singleton_append] at hrest
    exact h.bind_made hx hrest

/-- Skipping continuations for signals, the first signal is what remains of values that `pure`
makes. -/
theorem nested_threaded (hxs : List.Forall₂ (fun u x => (pure u).Computes S (.ok x)) us xs)
    (vs : List Value) :
    (nested pure (fun a f => bind a (skipping pure f)) xs vs).Equal S
      (Unfailing S effect bind fun _ => True)
      (pure ((us.find? Value.isSignal).getD (.list (vs ++ us)))) := by
  induction hxs generalizing vs with
  | nil =>
    rw [List.append_nil]
    exact h.pure_unfailing trivial
  | @cons u x us xs hx _ ih =>
    refine h.bind_made hx ?_
    change Prog.Equal S _ (if u.isSignal then pure u
      else nested pure (fun a f => bind a (skipping pure f)) xs (vs ++ [u])) _
    by_cases hsignal : u.isSignal = true
    · rw [if_pos hsignal, List.find?_cons_of_pos hsignal]
      exact h.pure_unfailing trivial
    · rw [if_neg hsignal, List.find?_cons_of_neg hsignal]
      have hrest := ih (vs ++ [u])
      rwa [List.append_assoc, List.singleton_append] at hrest

/-- What `pure` makes are effect values on which `bind` does not fault. -/
theorem made_unfailing (hP : ∀ v, P v)
    (hxs : List.Forall₂ (fun u x => (pure u).Computes S (.ok x)) us xs) :
    List.Forall₂ (fun _ x => Unfailing S effect bind P x) us xs ∨
      ∀ (q : Prog Value) r, q.Computes S r := by
  induction hxs with
  | nil => exact .inl .nil
  | @cons u _ _ _ hx _ ih =>
    rcases (h.pure_unfailing (hP u)).mem hx with hmem | hany
    · exact ih.imp_left fun hrest => .cons hmem hrest
    · exact .inr hany

end SequenceLaws

/-! ## Products of the layer -/

namespace Definition

variable {d e : Definition} {i : DefId}

/-- The operations of a layer that threads signals. -/
structure Threads (d e : Definition) : Prop where
  pure : e.table .pure = d.table .pure
  raise : e.table .raise = fun payload => d.table .pure (.signal payload .exception)
  block : e.table .block = blockWith (d.table .pure) (d.table .bind) (d.table .pure)
  bind : e.table .bind = fun a f => d.table .bind a (skipping (d.table .pure) f)
  map : e.table .map = fun a f => d.table .map a (skipping Pure.pure f)

theorem threads_of_definition? (hd : d.supplies .handle = false)
    (he : (Escape.seed d).definition? i = some e) : d.Threads e := by
  have htable (op : Operation) {f : Signature op} (hf : (Escape.threaded d).ops op = some f) :=
    table_threaded hd he op hf
  exact ⟨htable .pure rfl, htable .raise rfl, htable .block rfl, htable .bind rfl, htable .map rfl⟩

/-- Of two, `pair` is an `arr` that is kept. -/
theorem pair_kept (hd : d.supplies .handle = false) (harr : d.supplies .arr = true)
    (he : (Escape.seed d).definition? i = some e) (x y : Value) :
    e.table .arr = d.table .arr ∧ e.table .pair x y = d.table .arr [x, y] := by
  rw [Escape.seed_of_not_handles hd] at he
  obtain ⟨-, hkept⟩ := kept_of_definition? "escape" .arr he rfl rfl
  refine ⟨hkept harr, ?_⟩
  have hops : (Escape.threaded d).ops .arr = some (d.table .arr) := by
    change (if (Seed.keeps .arr && d.supplies .arr) = true then some (d.table .arr) else none) = _
    rw [harr]
    rfl
  obtain ⟨lift, -, rfl⟩ := Option.map_eq_some_iff.mp he
  have hpair : (Escape.threaded d).ops .pair = none := rfl
  simp only [Seed.table, Seed.pair, hpair, hops]

/-- `arr` collects effect values in sequence. -/
def Collects (d : Definition) (S : Setting) (effect : (Value → Prop) → Value → Prop) : Prop :=
  ∀ Ps xs, List.Forall₂ (Unfailing S effect (d.table .bind)) Ps xs →
    (d.table .arr xs).Equal S (effect (Value.Tuple Ps))
      (nested (d.table .pure) (d.table .bind) xs [])

/-- The values are what `pure` makes of others. -/
def Makes (d : Definition) (S : Setting) : List Value → List Value → Prop :=
  List.Forall₂ fun u x => (d.table .pure u).Computes S (.ok x)

section

variable {effect : (Value → Prop) → Value → Prop}
  (hd : d.supplies .handle = false) (he : (Escape.seed d).definition? i = some e)
  (h : SequenceLaws S effect (d.table .pure) (d.table .bind))
  (hmap : MapsResults S (Unfailing S effect (d.table .bind)) (d.table .pure) (d.table .bind)
    (d.table .map))

include hd he h hmap

/-- Products that are derived are collected in sequence. -/
theorem threaded_derived (harr : d.supplies .arr = false) :
    (∀ Ps xs, List.Forall₂ (fun P => Unfailing S effect (d.table .bind) (Value.OrSignal P)) Ps xs →
      (e.table .arr xs).Equal S (effect (Value.OrSignal (Value.Tuple Ps)))
        (nested (e.table .pure) (e.table .bind) xs [])) ∧
    ∀ P Q x y, Unfailing S effect (d.table .bind) (Value.OrSignal P) x →
      Unfailing S effect (d.table .bind) (Value.OrSignal Q) y →
      (e.table .pair x y).Equal S (effect (Value.OrSignal (Value.Tuple [P, Q])))
        (nested (e.table .pure) (e.table .bind) [x, y] []) := by
  have hthreads := threads_of_definition? hd he
  rw [Escape.seed_of_not_handles hd] at he
  have hpair : (Escape.threaded d).ops .pair = none := rfl
  have hnone : (Escape.threaded d).ops .arr = none := by simp [Escape.threaded, Seed.keeping, harr]
  have hlaws := h.threaded
  have hmaps := h.threaded_maps hmap
  rw [← hthreads.bind, ← hthreads.pure] at hlaws
  rw [← hthreads.bind, ← hthreads.map, ← hthreads.pure] at hmaps
  constructor
  · intro Ps xs hxs
    exact (Seed.arr_of_definition? he hpair hnone hlaws hmaps hxs).mono fun _ hm => hm.mem
  · intro P Q x y hx hy
    exact (Seed.pair_of_definition? he hpair hnone hlaws hmaps hx hy).mono fun _ hm => hm.mem

omit hmap in
/-- In sequence, what `pure` makes give the first signal among them. -/
theorem threaded_nested {us xs : List Value} (hxs : d.Makes S us xs) :
    (nested (e.table .pure) (e.table .bind) xs []).Equal S (effect fun _ => True)
      (d.table .pure (.leftmost us)) := by
  have hthreads := threads_of_definition? hd he
  rw [hthreads.pure, hthreads.bind]
  exact (h.nested_threaded hxs []).mono fun _ hm => hm.mem

/-- A product of what `pure` makes: the list of the items by an `arr` that is kept, and the first
signal among them by one that is derived. -/
theorem threaded_product (hcollects : d.supplies .arr = true → d.Collects S effect)
    {us xs : List Value} (hxs : d.Makes S us xs) :
    (e.table .arr xs).Equal S (effect fun _ => True)
        (d.table .pure (if d.supplies .arr then .list us else .leftmost us)) ∧
      ∀ x y, xs = [x, y] → (e.table .pair x y).Equal S (effect fun _ => True)
        (d.table .pure (if d.supplies .arr then .list us else .leftmost us)) := by
  by_cases hany : ∀ (q : Prog Value) r, q.Computes S r
  case pos => exact ⟨.of_any hany, fun _ _ _ => .of_any hany⟩
  cases harr : d.supplies .arr with
  | true =>
    have hmade := (h.made_unfailing (P := fun _ => True) (fun _ => trivial) hxs).resolve_right hany
    have hnested := (h.nested_made hxs []).mono fun _ hm => hm.mem
    have hlist := (hcollects harr _ xs (List.forall₂_map_left_iff.mpr hmade)).agree.trans_equal
      hnested
    refine ⟨?_, fun x y hpair => ?_⟩
    · rw [(pair_kept hd harr he .unit .unit).1]
      exact hlist
    · subst hpair
      rw [(pair_kept hd harr he x y).2]
      exact hlist
  | false =>
    have hmade := (h.made_unfailing (P := Value.OrSignal fun _ => True) (fun _ => .inr trivial)
      hxs).resolve_right hany
    obtain ⟨hderived, hderivedPair⟩ := threaded_derived hd he h hmap harr
    have hnested := threaded_nested hd he h hxs
    refine ⟨?_, fun x y hpair => ?_⟩
    · exact (hderived _ xs (List.forall₂_map_left_iff.mpr hmade)).agree.trans_equal hnested
    · subst hpair
      cases hmade with
      | cons hx hrest =>
        cases hrest with
        | cons hy _ => exact (hderivedPair _ _ x y hx hy).agree.trans_equal hnested

end

/-- Products under threaded signals: a product that is derived is what nested binds collect, the
leftmost signal if an item is one; an `arr` that the definition beneath was given itself is kept,
with `pair` derived from it, and lists the items whatever they are. So products short-circuit
exactly if `arr` is not given, or `pure` does not tell the list from the signal. -/
theorem threaded_products_iff (d : Definition) (hd : d.supplies .handle = false) (c : Catalog) :
    ∃ e c', d.withEscapeControl c = (.ok e, c') ∧ d.Threads e ∧
      ∀ S effect, SequenceLaws S effect (d.table .pure) (d.table .bind) →
        MapsResults S (Unfailing S effect (d.table .bind)) (d.table .pure) (d.table .bind)
          (d.table .map) →
        (d.supplies .arr = true → d.Collects S effect) →
        (d.supplies .arr = false → ∀ Ps xs,
          List.Forall₂ (fun P => Unfailing S effect (d.table .bind) (Value.OrSignal P)) Ps xs →
            (e.table .arr xs).Equal S (effect (Value.OrSignal (Value.Tuple Ps)))
              (nested (e.table .pure) (e.table .bind) xs [])) ∧
        ∀ us xs, d.Makes S us xs →
          (nested (e.table .pure) (e.table .bind) xs []).Equal S (effect fun _ => True)
            (d.table .pure (.leftmost us)) ∧
          (e.table .arr xs).Equal S (effect fun _ => True)
            (d.table .pure (if d.supplies .arr then .list us else .leftmost us)) ∧
          (∀ x y, xs = [x, y] → (e.table .pair x y).Equal S (effect fun _ => True)
            (d.table .pure (if d.supplies .arr then .list us else .leftmost us))) ∧
          ((e.table .arr xs).Equal S (effect fun _ => True)
              (nested (e.table .pure) (e.table .bind) xs []) ↔
            d.supplies .arr = false ∨ (d.table .pure (.list us)).Equal S (effect fun _ => True)
              (d.table .pure (.leftmost us))) := by
  obtain ⟨e, c', hmakes, -, i, he⟩ : Assembly.Yields (Escape.seed d).assemble c fun e _ =>
      ∃ i, (Escape.seed d).definition? i = some e := by
    refine Seed.yields_assemble ?_ fun e i he _ => ⟨i, he⟩
    rw [Escape.seed, if_neg (by simp [hd])]
    rfl
  have hthreads := threads_of_definition? hd he
  refine ⟨e, c', hmakes, hthreads, fun S effect h hmap hcollects => ⟨?_, fun us xs hxs => ?_⟩⟩
  · exact fun harr => (threaded_derived hd he h hmap harr).1
  · have hnested := threaded_nested hd he h hxs
    obtain ⟨harr, hpair⟩ := threaded_product hd he h hmap hcollects hxs
    refine ⟨hnested, harr, hpair, ?_⟩
    cases hsupplies : d.supplies .arr with
    | false =>
      rw [hsupplies] at harr
      exact ⟨fun _ => .inl rfl, fun _ => harr.trans hnested.symm⟩
    | true =>
      rw [hsupplies] at harr
      constructor
      · exact fun hequal => .inr ((harr.symm.trans hequal).trans hnested)
      · rintro (hfalse | hequal)
        · cases hfalse
        · exact (harr.trans hequal).trans hnested.symm

end Definition

namespace Effects

/-- Plain values are effect values, and to continue is to call. -/
theorem sequenceLaws_identity :
    SequenceLaws S (fun P => P) (fun v => pure v) fun a f => f.call a where
  pure_equal hv := .pure hv
  bind_agree ha hfg := (hfg _ ha).agree.holding _ _
  left hv hf := (hf _ hv).agree.holding_left _
  assoc {P Q R a f g} holds ha hf hg := by
    have hcall (b : Value) (hb : Q b) := (hg b hb).agree.holding_left g.holds
    have hchain := (hf a ha).agree.bind hcall
    exact (((hf a ha).agree.holding_left f.holds).bind hcall).trans
      (hchain.holding_left holds).symm

/-- Plain values with an `arr` that lists its items. -/
def listing : Seed := identity.set .arr fun items => pure (.list items)

/-- An exception among the items of an `arr` that is kept: the exception is what nested binds
collect, and one of the items that are listed. -/
theorem threaded_products_listing :
    ∃ d c e c', listing.complete .empty = (.ok d, c) ∧ d.withEscapeControl c = (.ok e, c') ∧
      d.supplies .handle = false ∧ d.supplies .arr = true ∧
      d.Collects (.silent c' e.id) (fun P => P) ∧
      let raised : Value := .signal (.int 1) .exception
      (e.table .raise (.int 1)).Computes (.silent c' e.id) (.ok raised) ∧
        (nested (e.table .pure) (e.table .bind) [raised, .int 2] []).Computes (.silent c' e.id)
          (.ok raised) ∧
        (e.table .arr [raised, .int 2]).Computes (.silent c' e.id)
          (.ok (.list [raised, .int 2])) ∧
        (e.table .pair raised (.int 2)).Computes (.silent c' e.id)
          (.ok (.list [raised, .int 2])) := by
  obtain ⟨d, c, hcomplete⟩ : ∃ d c, listing.complete .empty = (.ok d, c) := ⟨_, _, rfl⟩
  obtain ⟨i, hd⟩ := Seed.definition?_of_complete rfl hcomplete
  have hpure : d.table .pure = fun v => pure v := Seed.table_given hd .pure rfl
  have hbind : d.table .bind = fun a f => f.call a := Seed.table_given hd .bind rfl
  have harr : d.table .arr = fun items => pure (.list items) := Seed.table_given hd .arr rfl
  have hhandle : d.supplies .handle = false := Seed.supplies_of_definition? hd .handle
  have hsupplies : d.supplies .arr = true := Seed.supplies_given hd .arr rfl
  obtain ⟨e, c', he, hthreads, hproducts⟩ := Definition.threaded_products_iff d hhandle c
  have hlaws : SequenceLaws (.silent c' e.id) (fun P => P) (d.table .pure) (d.table .bind) := by
    rw [hpure, hbind]
    exact sequenceLaws_identity
  have hmap := hlaws.collectLaws.maps (Seed.map_derived hd rfl)
  have hmade (xs : List Value) : d.Makes (.silent c' e.id) xs xs := by
    rw [Definition.Makes, hpure]
    exact List.forall₂_same.mpr fun x _ => .pure x
  have hcollects : d.Collects (.silent c' e.id) fun P => P := by
    intro Ps xs hxs
    have hlist : (d.table .pure (.list xs)).Equal (.silent c' e.id) (Value.Tuple Ps)
        (d.table .arr xs) := by
      rw [hpure, harr]
      exact .pure ⟨xs, rfl, hxs.imp fun _ _ hx => hx.mem⟩
    exact ((hlaws.nested_made (hmade xs) []).agree.trans_equal hlist).symm
  obtain ⟨-, hproduct⟩ := hproducts _ _ hlaws hmap fun _ => hcollects
  obtain ⟨hnested, hlist, hpair, -⟩ := hproduct _ _ (hmade [.signal (.int 1) .exception, .int 2])
  rw [hsupplies, hpure] at hlist hpair
  rw [hpure] at hnested
  refine ⟨d, c, e, c', hcomplete, he, hhandle, hsupplies, hcollects, ?_, ?_, ?_, ?_⟩
  · rw [hthreads.raise, hpure]
    exact .pure _
  · exact hnested.computes (.pure _)
  · exact hlist.computes (.pure _)
  · exact (hpair _ _ rfl).computes (.pure _)

/-- The exception is one of the items that are listed, whatever else is in use, while `bind`
skips its continuation for it. -/
theorem signal_listed :
    ∃ d c, listing.build ⟨true, none, false, .off, .home⟩ .empty = (.ok d, c) ∧
      let raised : Value := .signal (.int 1) .exception
      let product : Prog Value := do d.table .arr [← d.table .raise (.int 1), .int 2]
      let sequence : Prog Value := do
        d.table .bind (← d.table .raise (.int 1))
          ⟨fun v => d.table .bind (.int 2) ⟨fun u => d.table .pure (.list [v, u]), { }⟩, { }⟩
      product.answers c (.hosting d.id) (.list [raised, .int 2]) = true ∧
        sequence.answers c (.hosting d.id) raised = true ∧ ¬ product.Same sequence := by
  obtain ⟨d, c, hbuild, hshown⟩ := Seed.exists_of_builds (s := listing)
    (o := ⟨true, none, false, .off, .home⟩) (c := .empty)
    (T := fun d c =>
      let raised : Value := .signal (.int 1) .exception
      let product : Prog Value := do d.table .arr [← d.table .raise (.int 1), .int 2]
      let sequence : Prog Value := do
        d.table .bind (← d.table .raise (.int 1))
          ⟨fun v => d.table .bind (.int 2) ⟨fun u => d.table .pure (.list [v, u]), { }⟩, { }⟩
      product.answers c (.hosting d.id) (.list [raised, .int 2]) &&
        sequence.answers c (.hosting d.id) raised &&
        !sequence.answers c (.hosting d.id) (.list [raised, .int 2]))
    (by decide +kernel)
  simp only [Bool.and_eq_true, Bool.not_eq_true'] at hshown
  obtain ⟨⟨hproduct, hsequence⟩, hdiffers⟩ := hshown
  refine ⟨d, c, hbuild, hproduct, hsequence, fun hsame => ?_⟩
  rw [hsame.answers, hdiffers] at hproduct
  cases hproduct

end Effects

end EffectLayers
