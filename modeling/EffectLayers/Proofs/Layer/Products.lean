import EffectLayers.Proofs.Layer.SequenceLaws
import Mathlib.Data.List.Forall2

/-!
# Products

Where only `pure` and `bind` are given, the list of effect values that `arr` collects is the one
that nested binds collect from the left to the right, however often a continuation is run.

## Main definitions

* `Value.Tuple`: lists with as many items as there are properties, one for each.
* `nested`: effect values in sequence, their results collected.
* `lexicographic`: one item of each list, in every possible way.

## Main statements

* `Seed.collect_equal`: what is collected in pairs is collected in sequence.
* `Seed.arr_in_order`: the derived `arr` collects in order, and on lists it is the product.
-/

namespace EffectLayers

variable {S : Setting} {P Q : Value → Prop}

/-! ## In sequence -/

/-- Lists with as many items as there are properties, each of which has its own. -/
def Value.Tuple (Ps : List (Value → Prop)) (v : Value) : Prop :=
  ∃ vs, v = .list vs ∧ List.Forall₂ (fun P v => P v) Ps vs

/-- Continue with each effect value in turn and collect the results, after those that are there
already. -/
def nested (pure : Value → Prog Value) (bind : Value → Callback → Prog Value) :
    List Value → List Value → Prog Value
  | [], vs => pure (.list vs)
  | x :: xs, vs =>
    bind x ⟨fun v => nested pure bind xs (vs ++ [v]), { values := vs ++ xs }⟩

/-- The value in front of a list. -/
def inFront (pure : Value → Prog Value) (u : Value) : Callback :=
  ⟨fun v => do pure (.list (u :: (← v.asList))), { values := [u] }⟩

section

variable {effect : (Value → Prop) → Value → Prop} {pure : Value → Prog Value}
  {bind map : Value → Callback → Prog Value} (h : CollectLaws S effect pure bind)

include h

theorem inFront_equal {Ps : List (Value → Prop)} {u : Value} (hu : P u) :
    (inFront pure u).Equal S (Value.Tuple Ps) (effect (Value.Tuple (P :: Ps)))
      (inFront pure u) := by
  rintro _ ⟨vs, rfl, hvs⟩
  exact h.pure_equal ⟨u :: vs, rfl, .cons hu hvs⟩

theorem nested_equal {Ps Qs : List (Value → Prop)} {xs vs : List Value}
    (hxs : List.Forall₂ effect Ps xs) (hvs : List.Forall₂ (fun P v => P v) Qs vs) :
    (nested pure bind xs vs).Equal S (effect (Value.Tuple (Qs ++ Ps)))
      (nested pure bind xs vs) := by
  induction hxs generalizing Qs vs with
  | nil => exact h.pure_equal ⟨vs, rfl, by rwa [List.append_nil]⟩
  | @cons P x Ps xs hx _ ih =>
    refine h.bind_equal hx fun v hv => ?_
    have hrest := ih (List.rel_append hvs (.cons hv .nil))
    rwa [List.append_assoc, List.singleton_append] at hrest

/-- To put a value in front of what is collected is to collect it first. -/
theorem nested_inFront {Ps Qs : List (Value → Prop)} {xs vs : List Value} {u : Value} (hu : P u)
    (hxs : List.Forall₂ effect Ps xs) (hvs : List.Forall₂ (fun P v => P v) Qs vs) :
    Prog.Equal S (effect (Value.Tuple (P :: (Qs ++ Ps))))
      (do bind (← nested pure bind xs vs) (inFront pure u)) (nested pure bind xs (u :: vs)) := by
  induction hxs generalizing Qs vs with
  | nil =>
    rw [List.append_nil]
    exact h.left (P := Value.Tuple Qs) ⟨vs, rfl, hvs⟩ (inFront_equal h hu)
  | @cons R x Ps xs hx hxs ih =>
    let rest : Callback := ⟨fun v => nested pure bind xs (vs ++ [v]), { values := vs ++ xs }⟩
    have hsplit (v : Value) (hv : R v) :
        List.Forall₂ (fun P v => P v) (Qs ++ [R]) (vs ++ [v]) := List.rel_append hvs (.cons hv .nil)
    have hrest : rest.Equal S R (effect (Value.Tuple (Qs ++ R :: Ps))) rest := by
      intro v hv
      have hv := nested_equal h hxs (hsplit v hv)
      rwa [List.append_assoc, List.singleton_append] at hv
    calc
      Prog.Equal S (effect (Value.Tuple (P :: (Qs ++ R :: Ps))))
          (do bind (← bind x rest) (inFront pure u))
          (bind x ⟨fun v => do bind (← rest.code v) (inFront pure u), {}⟩) :=
        h.assoc {} hx hrest (inFront_equal h hu)
      Prog.Equal S (effect (Value.Tuple (P :: (Qs ++ R :: Ps)))) _
          (nested pure bind (x :: xs) (u :: vs)) := by
        refine h.bind_equal hx fun v hv => ?_
        have hv := ih (hsplit v hv)
        rwa [List.append_assoc, List.singleton_append] at hv

end

/-! ## In pairs -/

/-- To take a pair apart is to put its first part in front of the list that is its second. -/
theorem consParts_equal {Ps : List (Value → Prop)} {v : Value}
    (hv : Value.Tuple [P, Value.Tuple Ps] v) :
    (Seed.consParts v).Equal S (Value.Tuple (P :: Ps)) (Seed.consParts v) := by
  obtain ⟨_, rfl, hparts⟩ := hv
  cases hparts with
  | cons hu htail =>
    cases htail with
    | cons hrest hnil =>
      obtain ⟨vs, rfl, hvs⟩ := hrest
      cases hnil
      exact .pure ⟨_, rfl, .cons hu hvs⟩

namespace Seed

variable {s : Seed} {effect : (Value → Prop) → Value → Prop} {lift : Value → Prog Value}
  (h : CollectLaws S effect lift s.bind) (hmap : MapsResults S effect lift s.bind (s.map lift))
  (hpair : s.ops .pair = none) (harr : s.ops .arr = none)

include h hmap hpair harr

/-- A pair is collected in sequence. -/
theorem pair_equal {a b : Value} (ha : effect P a) (hb : effect Q b) :
    (s.pair lift a b).Equal S (effect (Value.Tuple [P, Q])) (nested lift s.bind [a, b] []) := by
  simp only [pair, hpair, harr]
  refine Prog.Equal.holding_left _ (h.bind_equal ha fun u hu => ?_)
  have hlist : Closure.Equal S Q (Value.Tuple [P, Q])
      ⟨fun w => Pure.pure (.list [u, w]), { values := [u] }⟩
      ⟨fun w => Pure.pure (.list [u, w]), { values := [u] }⟩ :=
    fun w hw => .pure ⟨[u, w], rfl, .cons hu (.cons hw .nil)⟩
  exact (hmap.map_equal hb hlist).trans (h.bind_equal hb (h.pure_after hlist _ _))

/-- To pair a value with a list and to take the pair apart is to put the value in front. -/
theorem pair_consParts {Ps : List (Value → Prop)} {a y : Value} (ha : effect P a)
    (hy : effect (Value.Tuple Ps) y) (holds : Holding) :
    Prog.Equal S (effect (Value.Tuple (P :: Ps)))
      (do s.map lift (← s.pair lift a y) { code := consParts })
      (s.bind a ⟨fun u => s.bind y (inFront lift u), holds⟩) := by
  let apart : Callback := ⟨fun v => do lift (← consParts v), {}⟩
  let listed (u : Value) : Callback :=
    ⟨fun w => lift (.list [u, w]), { values := [u] }⟩
  have hapart : apart.Equal S (Value.Tuple [P, Value.Tuple Ps])
      (effect (Value.Tuple (P :: Ps))) apart :=
    fun v hv => (consParts_equal hv).bind fun _ hc => h.pure_equal hc
  have hlisted {u : Value} (hu : P u) : (listed u).Equal S (Value.Tuple Ps)
      (effect (Value.Tuple [P, Value.Tuple Ps])) (listed u) :=
    fun w hw => h.pure_equal ⟨[u, w], rfl, .cons hu (.cons hw .nil)⟩
  calc
    Prog.Equal S (effect (Value.Tuple (P :: Ps)))
        (do s.map lift (← s.pair lift a y) { code := consParts })
        (do s.bind (← nested lift s.bind [a, y] []) apart) :=
      (pair_equal h hmap hpair harr ha hy).bind fun m hm =>
        hmap.map_equal hm fun v hv => consParts_equal hv
    Prog.Equal S (effect (Value.Tuple (P :: Ps))) _
        (s.bind a ⟨fun u => do s.bind (← s.bind y (listed u)) apart, holds⟩) :=
      h.assoc holds ha (fun u hu => h.bind_equal hy (hlisted hu)) hapart
    Prog.Equal S (effect (Value.Tuple (P :: Ps))) _
        (s.bind a ⟨fun u => s.bind y (inFront lift u), holds⟩) := by
      refine h.bind_equal ha fun u hu => ?_
      refine (h.assoc {} hy (hlisted hu) hapart).trans (h.bind_equal hy fun w hw => ?_)
      obtain ⟨vs, rfl, hvs⟩ := hw
      exact h.left ⟨_, rfl, .cons hu (.cons ⟨vs, rfl, hvs⟩ .nil)⟩ hapart

/-- One more in front of what is collected in sequence already. -/
theorem cons_equal {Ps : List (Value → Prop)} {x : Value} {xs : List Value} (hx : effect P x)
    (hxs : List.Forall₂ effect Ps xs) (hrest : (s.collect lift xs).Equal S (effect (Value.Tuple Ps))
      (nested lift s.bind xs [])) :
    Prog.Equal S (effect (Value.Tuple (P :: Ps)))
      (do
        let tail ← s.collect lift xs
        s.map lift (← s.pair lift x tail) { code := consParts })
      (nested lift s.bind (x :: xs) []) := by
  refine (hrest.bind fun y hy => pair_consParts h hmap hpair harr hx hy {}).trans
    (hrest.right.bind_value fun y hy hcomputes => h.bind_equal hx fun u hu => ?_)
  -- The list of the others is computed by now.
  have hagain : Prog.Equal S (effect (Value.Tuple (P :: Ps)))
      (do s.bind (← nested lift s.bind xs []) (inFront lift u)) (s.bind y (inFront lift u)) :=
    .of_computes hcomputes (h.bind_equal hy (inFront_equal h hu))
  exact hagain.symm.trans (nested_inFront h hu hxs .nil)

/-- What is collected in pairs of a first and the list of the others is collected in sequence. -/
theorem collect_equal {Ps : List (Value → Prop)} {xs : List Value}
    (hxs : List.Forall₂ effect Ps xs) :
    (s.collect lift xs).Equal S (effect (Value.Tuple Ps)) (nested lift s.bind xs []) := by
  induction hxs with
  | nil => exact h.pure_equal ⟨[], rfl, .nil⟩
  | @cons P x Ps xs hx hxs ih =>
    match hxs with
    | .nil =>
      have hlist : Closure.Equal S P (Value.Tuple [P]) ⟨fun v => Pure.pure (.list [v]), {}⟩
          ⟨fun v => Pure.pure (.list [v]), {}⟩ :=
        fun v hv => .pure ⟨[v], rfl, .cons hv .nil⟩
      exact (hmap.map_equal hx hlist).trans (h.bind_equal hx (h.pure_after hlist _ _))
    | .cons hb .nil => exact pair_equal h hmap hpair harr hx hb
    | .cons hb (.cons hc hrest) =>
      exact cons_equal h hmap hpair harr hx (.cons hb (.cons hc hrest)) ih

/-- The derived `arr` collects in sequence. -/
theorem arr_equal {Ps : List (Value → Prop)} {xs : List Value}
    (hxs : List.Forall₂ effect Ps xs) :
    (s.arr lift xs).Equal S (effect (Value.Tuple Ps)) (nested lift s.bind xs []) := by
  simp only [arr, harr, Option.getD_none]
  exact (collect_equal h hmap hpair harr hxs).holding_left _

end Seed

/-! ## What a seed derives -/

namespace Seed

variable {s : Seed} {i : DefId} {d : Definition}

theorem arr_derived (hd : s.definition? i = some d) (harr : s.ops .arr = none) (a b : Value) :
    d.table .arr [a, b] = Prog.keeping [a, b] (d.table .pair a b) := by
  obtain ⟨lift, -, rfl⟩ := Option.map_eq_some_iff.mp hd
  simp only [table, arr, harr, Option.getD_none, collect]

theorem pair_of_definition? {effect : (Value → Prop) → Value → Prop}
    (hd : s.definition? i = some d) (hpair : s.ops .pair = none) (harr : s.ops .arr = none)
    (h : CollectLaws S effect (d.table .pure) (d.table .bind))
    (hmap : MapsResults S effect (d.table .pure) (d.table .bind) (d.table .map))
    {a b : Value} (ha : effect P a) (hb : effect Q b) :
    (d.table .pair a b).Equal S (effect (Value.Tuple [P, Q]))
      (nested (d.table .pure) (d.table .bind) [a, b] []) := by
  obtain ⟨lift, -, rfl⟩ := Option.map_eq_some_iff.mp hd
  exact pair_equal h hmap hpair harr ha hb

theorem arr_of_definition? {effect : (Value → Prop) → Value → Prop}
    (hd : s.definition? i = some d) (hpair : s.ops .pair = none) (harr : s.ops .arr = none)
    (h : CollectLaws S effect (d.table .pure) (d.table .bind))
    (hmap : MapsResults S effect (d.table .pure) (d.table .bind) (d.table .map))
    {Ps : List (Value → Prop)} {xs : List Value} (hxs : List.Forall₂ effect Ps xs) :
    (d.table .arr xs).Equal S (effect (Value.Tuple Ps))
      (nested (d.table .pure) (d.table .bind) xs []) := by
  obtain ⟨lift, -, rfl⟩ := Option.map_eq_some_iff.mp hd
  exact arr_equal h hmap hpair harr hxs

/-- What was not given beneath a context layer is not given by it. -/
theorem contextSeed_arr {inner : Definition} {mode : ContextMode} {id : DefId}
    (h : inner.supplies .arr = false) : (inner.contextSeed mode id).ops .arr = none := by
  have hkeeping : (inner.contextSeed mode id).ops .arr = (keeping inner "context").ops .arr := by
    cases mode <;> rfl
  rw [hkeeping]
  simp [keeping, h]

/-- A context layer continues as the definition beneath it, if its definition is in use. -/
theorem contextSeed_bind {effect : (Value → Prop) → Value → Prop} {inner : Definition}
    {mode : ContextMode} (h : CollectLaws S effect (inner.table .pure) (inner.table .bind))
    (hd : (inner.contextSeed mode i).definition? i = some d) (hknown : d.KnownIn S.catalog)
    (hhost : S.Hosts d.id) {a : Value} {f : Callback} (ha : effect P a)
    (hf : f.Equal S P (effect Q) f) :
    (d.table .bind a f).Equal S (effect Q) (inner.table .bind a f) := by
  have hinstalls : S.Installs (some ⟨inner.name ++ "+context", i⟩) := by
    rintro _ ⟨⟩
    rw [← id_of_definition? hd]
    exact ⟨hhost, Definition.mem_lineage hknown⟩
  cases mode with
  | full =>
    rw [table_given hd .bind rfl]
    exact h.bind_equal ha (hf.installed hinstalls)
  | off | runOnly =>
    rw [table_given hd .bind rfl]
    exact h.bind_equal ha hf

/-- Where neither `arr` nor `pair` nor `map` is given, the definition of a seed collects in
sequence, also with a context put back on top. -/
theorem complete_arr {pure : Value → Prog Value} (hpure : s.ops .pure = some pure)
    (harr : s.ops .arr = none) (hpair : s.ops .pair = none) (hmap : s.ops .map = none)
    (c : Catalog) :
    ∃ d c₁, s.complete c = (.ok d, c₁) ∧ d.table .pure = pure ∧
      (∀ a b, d.table .arr [a, b] = Prog.keeping [a, b] (d.table .pair a b)) ∧
      ∀ S effect, (s.reinstall ≠ none → d.KnownIn S.catalog ∧ S.Hosts d.id) →
        SequenceLaws S effect pure s.bind →
        ∀ Ps xs, List.Forall₂ (Unfailing S effect s.bind) Ps xs →
          (d.table .arr xs).Equal S (effect (Value.Tuple Ps))
            (nested pure (d.table .bind) xs []) := by
  obtain ⟨d, c₁, inner, hcomplete, ⟨id, hinner⟩, htop⟩ := exists_complete hpure c
  obtain rfl : inner.table .pure = pure := table_given hinner .pure hpure
  have hbind : inner.table .bind = s.bind := by
    obtain ⟨lift, -, rfl⟩ := Option.map_eq_some_iff.mp hinner
    rfl
  have hsupplies : inner.supplies .arr = false := by
    rw [supplies_of_definition? hinner, supplies, harr]
    rfl
  rw [← hbind]
  rcases htop with rfl | ⟨hreinstall, mode, self, hd⟩
  case inl =>
    refine ⟨d, c₁, hcomplete, rfl, arr_derived hinner harr, fun S effect _ hlaws Ps xs hxs => ?_⟩
    have hcollect := hlaws.collectLaws
    have hmaps := hcollect.maps (map_derived hinner hmap)
    exact (arr_of_definition? hinner hpair harr hcollect hmaps hxs).mono fun _ hm => hm.mem
  case inr =>
    have hid := id_of_definition? hd
    have hpair' : (inner.contextSeed mode self).ops .pair = none := by cases mode <;> rfl
    have harr' : (inner.contextSeed mode self).ops .arr = none := contextSeed_arr hsupplies
    have hpure' : d.table .pure = inner.table .pure := table_given hd .pure (by cases mode <;> rfl)
    have hmap' : d.table .map = inner.table .map := table_given hd .map (by cases mode <;> rfl)
    refine ⟨d, c₁, hcomplete, hpure', arr_derived hd harr',
      fun S effect hused hlaws Ps xs hxs => ?_⟩
    obtain ⟨hknown, hhost⟩ := hused hreinstall
    have hcollect := hlaws.collectLaws
    have hmaps := hcollect.maps (map_derived hinner hmap)
    have hsame {P Q : Value → Prop} {a : Value} {f : Callback}
        (ha : Unfailing S effect (inner.table .bind) P a)
        (hf : f.Equal S P (Unfailing S effect (inner.table .bind) Q) f) :=
      contextSeed_bind hcollect (hid ▸ hd) hknown hhost ha hf
    have h := arr_of_definition? hd hpair' harr' (hpure' ▸ hcollect.congr hsame)
      (hpure' ▸ hmap' ▸ hcollect.maps_congr hmaps hsame) hxs
    rw [hpure'] at h
    exact h.mono fun _ hm => hm.mem

end Seed

/-! ## Lists of results -/

/-- One item of each list, those of the first list varying last. -/
def lexicographic {α : Type} : List (List α) → List (List α)
  | [] => [[]]
  | xs :: xss => xs.flatMap fun x => (lexicographic xss).map (x :: ·)

theorem mem_lexicographic {α : Type} {xss : List (List α)} {vs : List α} :
    vs ∈ lexicographic xss ↔ List.Forall₂ (· ∈ ·) vs xss := by
  induction xss generalizing vs with
  | nil => simp [lexicographic]
  | cons xs xss ih =>
    simp only [lexicographic, List.mem_flatMap, List.mem_map, ih, List.forall₂_cons_right_iff]
    constructor
    · rintro ⟨x, hx, us, hus, rfl⟩
      exact ⟨x, us, hx, hus, rfl⟩
    · rintro ⟨x, us, hx, hus, rfl⟩
      exact ⟨x, hx, us, hus, rfl⟩

/-- In sequence, lists give one item of each in every possible way. -/
theorem Effects.computes_nested (xss : List (List Value)) (vs : List Value) :
    (nested (fun v => pure (.list [v])) results.bind (xss.map .list) vs).Computes S
      (.ok (.list ((lexicographic xss).map fun us => .list (vs ++ us)))) := by
  induction xss generalizing vs with
  | nil =>
    rw [lexicographic, List.map_singleton, List.append_nil]
    exact .pure _
  | cons xs xss ih =>
    have hrest (v : Value) := ih (vs ++ [v])
    simp only [List.append_assoc, List.singleton_append] at hrest
    let onward (v : Value) : Prog Value :=
      nested (fun v => pure (.list [v])) results.bind (xss.map .list) (vs ++ [v])
    have hbind := computes_bind_results (f := ⟨onward, { values := vs ++ xss.map .list }⟩)
      fun v (_ : v ∈ xs) => hrest v
    simp only [lexicographic, List.map_flatMap, List.map_map, Function.comp_def]
    exact hbind

/-- `arr` collects every item in order: where `pure` and `bind` are lawful and `bind` does not
fault on the items, it is nested binds from the left to the right, each result of which is a list
with one value for each item; and `arr` of two is `pair`. On lists it is the lexicographic
product. -/
theorem Seed.arr_in_order :
    (∀ (s : Seed) (pure : Value → Prog Value) (c : Catalog), s.ops .pure = some pure →
      s.ops .arr = none → s.ops .pair = none → s.ops .map = none →
      ∃ d c₁, s.complete c = (.ok d, c₁) ∧ d.table .pure = pure ∧
        (∀ a b, d.table .arr [a, b] = Prog.keeping [a, b] (d.table .pair a b)) ∧
        ∀ S effect, (s.reinstall ≠ none → d.KnownIn S.catalog ∧ S.Hosts d.id) →
          SequenceLaws S effect pure s.bind →
          ∀ Ps xs, List.Forall₂ (Unfailing S effect s.bind) Ps xs →
            (d.table .arr xs).Equal S (effect (Value.Tuple Ps))
              (nested pure (d.table .bind) xs [])) ∧
    ∀ c, ∃ d c₁, Effects.results.complete c = (.ok d, c₁) ∧ ∀ S (xss : List (List Value)),
      (d.table .arr (xss.map .list)).Computes S
        (.ok (.list ((lexicographic xss).map .list))) ∧
      ∀ vs, vs ∈ lexicographic xss ↔ List.Forall₂ (· ∈ ·) vs xss := by
  refine ⟨fun s pure c hpure harr hpair hmap => complete_arr hpure harr hpair hmap c, fun c => ?_⟩
  obtain ⟨d, c₁, hcomplete, -, -, harr⟩ := complete_arr (s := Effects.results) rfl rfl rfl rfl c
  refine ⟨d, c₁, hcomplete, fun S xss => ⟨?_, fun vs => mem_lexicographic⟩⟩
  obtain ⟨i, hd⟩ := definition?_of_complete rfl hcomplete
  have hbind : d.table .bind = Effects.results.bind := table_given hd .bind rfl
  have hxss : List.Forall₂ (Unfailing S Effects.listOf Effects.results.bind)
      (xss.map fun _ _ => True) (xss.map .list) := by
    simp only [List.forall₂_map_left_iff, List.forall₂_map_right_iff, List.forall₂_same]
    exact fun vs _ => Effects.unfailing_results ⟨vs, rfl, fun _ _ => trivial⟩
  have hequal := harr S Effects.listOf (absurd rfl) Effects.sequenceLaws_results _ _ hxss
  rw [hbind] at hequal
  exact hequal.computes (Effects.computes_nested xss [])

/-- Three lists, whose `arr` has four results of three values each. -/
theorem Seed.arr_in_order_results : ∃ d c, Effects.results.complete .empty = (.ok d, c) ∧
    let xs : List Value := [.list [.int 1, .int 2], .list [.int 3], .list [.int 4, .int 5]]
    let isInt (v : Value) : Prop := ∃ i, v = .int i
    List.Forall₂ (Unfailing (.silent c d.id) Effects.listOf Effects.results.bind)
        [isInt, isInt, isInt] xs ∧
      (d.table .arr xs).Equal (.silent c d.id)
        (Effects.listOf (Value.Tuple [isInt, isInt, isInt]))
        (nested (fun v => pure (.list [v])) (d.table .bind) xs []) ∧
      (d.table .arr xs).Computes (.silent c d.id) (.ok (.list
        [.list [.int 1, .int 3, .int 4], .list [.int 1, .int 3, .int 5],
          .list [.int 2, .int 3, .int 4], .list [.int 2, .int 3, .int 5]])) := by
  obtain ⟨d, c, hcomplete, -, -, harr⟩ :=
    arr_in_order.1 Effects.results (fun v => pure (.list [v])) .empty rfl rfl rfl rfl
  obtain ⟨d', c', hcomplete', hlists⟩ := arr_in_order.2 .empty
  obtain ⟨rfl, rfl⟩ : d' = d ∧ c' = c := by
    rw [hcomplete] at hcomplete'
    cases hcomplete'
    exact ⟨rfl, rfl⟩
  refine ⟨d', c', hcomplete, ?_⟩
  intro xs isInt
  have hitem (is : List Int64) : Unfailing (.silent c' d'.id) Effects.listOf
      Effects.results.bind isInt (.list (is.map .int)) := by
    refine Effects.unfailing_results ⟨_, rfl, fun v hv => ?_⟩
    obtain ⟨i, -, rfl⟩ := List.mem_map.mp hv
    exact ⟨i, rfl⟩
  have hxs : List.Forall₂ (Unfailing (.silent c' d'.id) Effects.listOf Effects.results.bind)
      [isInt, isInt, isInt] xs :=
    .cons (hitem [1, 2]) (.cons (hitem [3]) (.cons (hitem [4, 5]) .nil))
  refine ⟨hxs, ?_, ?_⟩
  · exact harr _ _ (absurd rfl) Effects.sequenceLaws_results _ _ hxs
  · exact (hlists _ [[.int 1, .int 2], [.int 3], [.int 4, .int 5]]).1

end EffectLayers
