import EffectLayers.Proofs.Layer.Monad
import EffectLayers.Proofs.Layer.SequenceLaws

/-!
# Sums of alternatives

Alternatives are supplied by `plus` and `empty`, or by `alt`; what is not supplied is derived from
what is. Either way the three operations give the sums of one monoid on effect values, and every
layer hands them on: it keeps what was supplied beneath and derives the rest again, or wraps all
three.

## Main definitions

* `ValueMonoid`, `ValueMonoid.sum`: a monoid on effect values, and the sum of a list.
* `ListSums`: sums of lists, of which a monoid is one case.
* `Prog.Giving`: what it means that a program gives a result.
* `Seed.GivesSums`: what is supplied gives the sums of a monoid.
* `Definition.Sums`: all three operations do.
* `Definition.MonoidLaws`: the laws of alternatives, in terms of what programs compute.

## Main statements

* `Seed.GivesSums.definition?`: what is derived gives sums if what is supplied does.
* `Definition.Sums.carrier`, `Definition.Sums.kept` and the like: every layer does.
* `Seed.GivesSums.build`: what is built gives the sums that its seed gives, packed.
* `Seed.build_alternatives`: what is built obeys the laws of alternatives.
-/

namespace EffectLayers

/-! ## Monoids on effect values -/

/-- A monoid on effect values. -/
@[ext]
structure ValueMonoid where
  effect : Value → Prop
  plus : Value → Value → Value
  empty : Value
  plus_mem : ∀ {a b}, effect a → effect b → effect (plus a b)
  empty_mem : effect empty
  assoc : ∀ {a b c}, effect a → effect b → effect c → plus (plus a b) c = plus a (plus b c)
  left : ∀ {a}, effect a → plus empty a = a
  right : ∀ {a}, effect a → plus a empty = a

namespace ValueMonoid

variable (M : ValueMonoid) {xs ys : List Value}

/-- The sum of a list. -/
def sum : List Value → Value
  | [] => M.empty
  | x :: xs => M.plus x (sum xs)

theorem sum_mem (hxs : ∀ x ∈ xs, M.effect x) : M.effect (M.sum xs) := by
  induction xs with
  | nil => exact M.empty_mem
  | cons x xs ih =>
    obtain ⟨hx, hxs⟩ := List.forall_mem_cons.mp hxs
    exact M.plus_mem hx (ih hxs)

theorem sum_singleton {x : Value} (hx : M.effect x) : M.sum [x] = x := M.right hx

theorem sum_pair {x y : Value} (hy : M.effect y) : M.sum [x, y] = M.plus x y :=
  congrArg (M.plus x) (M.sum_singleton hy)

theorem sum_append (hxs : ∀ x ∈ xs, M.effect x) (hys : ∀ y ∈ ys, M.effect y) :
    M.sum (xs ++ ys) = M.plus (M.sum xs) (M.sum ys) := by
  induction xs with
  | nil => exact (M.left (M.sum_mem hys)).symm
  | cons x xs ih =>
    obtain ⟨hx, hxs⟩ := List.forall_mem_cons.mp hxs
    calc
      M.plus x (M.sum (xs ++ ys)) = M.plus x (M.plus (M.sum xs) (M.sum ys)) := by rw [ih hxs]
      _ = M.plus (M.plus x (M.sum xs)) (M.sum ys) :=
        (M.assoc hx (M.sum_mem hxs) (M.sum_mem hys)).symm

/-- Effect values are wrapped. -/
def wrapped (W : Wrapping) : ValueMonoid where
  effect := W.Image M.effect
  plus a b := W.wrap (M.plus (W.unwrap a) (W.unwrap b))
  empty := W.wrap M.empty
  plus_mem := by
    rintro _ _ ⟨a, ha, rfl⟩ ⟨b, hb, rfl⟩
    exact ⟨_, by simpa only [W.unwrap_wrap] using M.plus_mem ha hb, rfl⟩
  empty_mem := ⟨_, M.empty_mem, rfl⟩
  assoc := by
    rintro _ _ _ ⟨a, ha, rfl⟩ ⟨b, hb, rfl⟩ ⟨c, hc, rfl⟩
    simp only [W.unwrap_wrap, M.assoc ha hb hc]
  left := by
    rintro _ ⟨a, ha, rfl⟩
    simp only [W.unwrap_wrap, M.left ha]
  right := by
    rintro _ ⟨a, ha, rfl⟩
    simp only [W.unwrap_wrap, M.right ha]

theorem wrapped_none : M.wrapped .none = M := by
  ext v
  · exact iff_of_eq (congrFun (Wrapping.image_of_wrap_eq_id rfl M.effect) v)
  · rfl
  · rfl

theorem sum_wrapped (W : Wrapping) (xs : List Value) :
    (M.wrapped W).sum (xs.map W.wrap) = W.wrap (M.sum xs) := by
  induction xs with
  | nil => rfl
  | cons x xs ih =>
    rw [List.map_cons, sum, ih, sum]
    simp only [wrapped, W.unwrap_wrap]

end ValueMonoid

/-- Sums of lists of effect values: of a single one that one, and of a concatenation the sum of the
sums of its parts. -/
structure ListSums where
  effect : Value → Prop
  sum : List Value → Value
  sum_mem : ∀ {xs}, (∀ x ∈ xs, effect x) → effect (sum xs)
  singleton : ∀ {x}, effect x → sum [x] = x
  flatten : ∀ xss : List (List Value), (∀ xs ∈ xss, ∀ x ∈ xs, effect x) →
    sum xss.flatten = sum (xss.map sum)

namespace ListSums

variable (A : ListSums)

/-- Sums of two values, and of none. -/
def monoid : ValueMonoid where
  effect := A.effect
  plus a b := A.sum [a, b]
  empty := A.sum []
  plus_mem ha hb := A.sum_mem (by simp [ha, hb])
  empty_mem := A.sum_mem nofun
  assoc {a b c} ha hb hc := by
    have hleft := A.flatten [[a, b], [c]] (by simp [ha, hb, hc])
    have hright := A.flatten [[a], [b, c]] (by simp [ha, hb, hc])
    simp only [List.map_cons, List.map_nil, A.singleton ha, A.singleton hc] at hleft hright
    exact hleft.symm.trans hright
  left {a} ha := by
    have hflat := A.flatten [[], [a]] (by simp [ha])
    simp only [List.map_cons, List.map_nil, A.singleton ha] at hflat
    exact hflat.symm.trans (A.singleton ha)
  right {a} ha := by
    have hflat := A.flatten [[a], []] (by simp [ha])
    simp only [List.map_cons, List.map_nil, A.singleton ha] at hflat
    exact hflat.symm.trans (A.singleton ha)

theorem sum_monoid {xs : List Value} (hxs : ∀ x ∈ xs, A.effect x) :
    A.monoid.sum xs = A.sum xs := by
  induction xs with
  | nil => rfl
  | cons x xs ih =>
    obtain ⟨hx, hxs⟩ := List.forall_mem_cons.mp hxs
    have hflat := A.flatten [[x], xs] (by simpa [hx] using hxs)
    simp only [List.map_cons, List.map_nil, A.singleton hx] at hflat
    calc
      A.sum [x, A.monoid.sum xs] = A.sum [x, A.sum xs] := by rw [ih hxs]
      _ = A.sum ([x] ++ (xs ++ [])) := hflat.symm
      _ = A.sum (x :: xs) := by rw [List.append_nil, List.singleton_append]

end ListSums

/-! ## What programs give -/

/-- What it means that a program gives a result, with a rule for each way of making programs. -/
structure Prog.Giving where
  gives : ∀ {α : Type}, Prog α → α → Prop
  pure : ∀ {α : Type} (a : α), gives (Pure.pure a) a
  bind : ∀ {α β : Type} {p : Prog α} {k : α → Prog β} {a : α} {b : β},
    gives p a → gives (k a) b → gives (p >>= k) b
  holding : ∀ {α : Type} {p : Prog α} {a : α} (h : Holding),
    gives p a → gives (Prog.holding h p) a

namespace Prog.Giving

/-- The result is computed. -/
def computing (S : Setting) : Prog.Giving where
  gives p a := p.Computes S (.ok a)
  pure := .pure
  bind := .bind
  holding h hp := hp.holding h

/-- The result is at hand already. -/
def atOnce : Prog.Giving where
  gives p a := p.Alike (Pure.pure a)
  pure _ := .refl _
  bind hp hk := (hp.bind_left _).trans hk
  holding h hp := (hp.holding h).trans (.inside_done _ _)

end Prog.Giving

/-! ## What is given and what is derived -/

variable {G : Prog.Giving} {M : ValueMonoid} {s : Seed} {d inner : Definition} {i : DefId}
  {c c' : Catalog}

/-- All three operations give the sums of a monoid. -/
structure Definition.Sums (d : Definition) (G : Prog.Giving) (M : ValueMonoid) : Prop where
  plus : ∀ {a b}, M.effect a → M.effect b → G.gives (d.table .plus a b) (M.plus a b)
  empty : G.gives (d.table .empty) M.empty
  alt : ∀ xs, (∀ x ∈ xs, M.effect x) → G.gives (d.table .alt xs) (M.sum xs)
  /-- There is a source from which the others can be derived again. -/
  source : d.supplies .plus = true ∧ d.supplies .empty = true ∨
    d.supplies .plus = false ∧ d.supplies .empty = false ∧ d.supplies .alt = true

/-- What is supplied gives the sums of a monoid: `plus` and `empty` are supplied, and `alt` may be,
or only `alt` is. -/
structure Seed.GivesSums (s : Seed) (G : Prog.Giving) (M : ValueMonoid) : Prop where
  plus : ∀ {plus}, s.ops .plus = some plus → ∀ {a b}, M.effect a → M.effect b →
    G.gives (plus a b) (M.plus a b)
  empty : ∀ {empty}, s.ops .empty = some empty → G.gives empty M.empty
  alt : ∀ {alt}, s.ops .alt = some alt → ∀ xs, (∀ x ∈ xs, M.effect x) →
    G.gives (alt xs) (M.sum xs)
  source : s.supplies .plus = true ∧ s.supplies .empty = true ∨
    s.supplies .plus = false ∧ s.supplies .empty = false ∧ s.supplies .alt = true

namespace Seed

/-- Adding from the left. -/
theorem gives_sum
    (hplus : ∀ {a b}, M.effect a → M.effect b → G.gives (s.plus a b) (M.plus a b))
    {xs : List Value} {acc : Value} (hacc : M.effect acc) (hxs : ∀ x ∈ xs, M.effect x) :
    G.gives (s.sum acc xs) (M.plus acc (M.sum xs)) := by
  induction xs generalizing acc with
  | nil =>
    rw [ValueMonoid.sum, M.right hacc]
    exact G.pure acc
  | cons x xs ih =>
    obtain ⟨hx, hxs⟩ := List.forall_mem_cons.mp hxs
    have hrest := ih (M.plus_mem hacc hx) hxs
    rw [M.assoc hacc hx (M.sum_mem hxs)] at hrest
    exact G.bind (G.holding _ (hplus hacc hx)) hrest

namespace GivesSums

variable (h : s.GivesSums G M)

include h

theorem gives_plus {a b : Value} (ha : M.effect a) (hb : M.effect b) :
    G.gives (s.plus a b) (M.plus a b) := by
  rcases h.source with ⟨hplus, -⟩ | ⟨hplus, -, halt⟩
  · obtain ⟨plus, hplus⟩ := Option.isSome_iff_exists.mp hplus
    simp only [Seed.plus, hplus]
    exact h.plus hplus ha hb
  · obtain ⟨alt, halt⟩ := Option.isSome_iff_exists.mp halt
    have hsum := h.alt halt [a, b] (by simp [ha, hb])
    rw [M.sum_pair hb] at hsum
    simpa only [Seed.plus, ops_eq_none hplus, halt] using hsum

theorem gives_empty : G.gives s.empty M.empty := by
  rcases h.source with ⟨-, hempty⟩ | ⟨-, hempty, halt⟩
  · obtain ⟨empty, hempty⟩ := Option.isSome_iff_exists.mp hempty
    simp only [Seed.empty, hempty]
    exact h.empty hempty
  · obtain ⟨alt, halt⟩ := Option.isSome_iff_exists.mp halt
    have hsum : G.gives (alt []) M.empty := h.alt halt [] nofun
    simpa only [Seed.empty, ops_eq_none hempty, halt] using hsum

theorem gives_alt {xs : List Value} (hxs : ∀ x ∈ xs, M.effect x) :
    G.gives (s.alt xs) (M.sum xs) := by
  cases halt : s.ops .alt with
  | some alt => simpa only [Seed.alt, halt, Option.getD_some] using h.alt halt xs hxs
  | none =>
    simp only [Seed.alt, halt, Option.getD_none]
    cases xs with
    | nil => exact h.gives_empty
    | cons x xs =>
      obtain ⟨hx, hxs⟩ := List.forall_mem_cons.mp hxs
      exact gives_sum h.gives_plus hx hxs

/-- What is not supplied gives sums because it is derived from what does. -/
theorem definition? (hd : s.definition? i = some d) : d.Sums G M := by
  have hsource := h.source
  simp only [← supplies_of_definition? hd] at hsource
  obtain ⟨lift, -, rfl⟩ := Option.map_eq_some_iff.mp hd
  exact ⟨h.gives_plus, h.gives_empty, fun _ => h.gives_alt, hsource⟩

end GivesSums

end Seed

/-! ## Layers -/

namespace Packing

variable (w : Packing)

theorem gives_unpack_pack (h : Holding) (v : Value) :
    G.gives (Prog.holding h (w.unpack (w.pack v))) v := by
  rw [unpack_pack]
  exact G.holding h (G.pure v)

theorem gives_unpackBoth (a b : Value) :
    G.gives (w.unpackBoth (w.pack a) (w.pack b)) (a, b) :=
  G.bind (w.gives_unpack_pack _ a) (G.bind (w.gives_unpack_pack _ b) (G.pure _))

theorem gives_unpackAll (xs : List Value) : G.gives (w.unpackAll (xs.map w.pack)) xs := by
  induction xs with
  | nil => exact G.pure []
  | cons x xs ih => exact G.bind (w.gives_unpack_pack _ x) (G.bind (G.holding _ ih) (G.pure _))

end Packing

namespace Wrapping

variable {W : Wrapping}

theorem exists_map {E : Value → Prop} {xs : List Value} (hxs : ∀ x ∈ xs, W.Image E x) :
    ∃ ys : List Value, (∀ y ∈ ys, E y) ∧ xs = ys.map W.wrap := by
  induction xs with
  | nil => exact ⟨[], nofun, rfl⟩
  | cons x xs ih =>
    obtain ⟨hx, hrest⟩ := List.forall_mem_cons.mp hxs
    obtain ⟨y, hy, rfl⟩ := hx
    obtain ⟨ys, hys, rfl⟩ := ih hrest
    exact ⟨y :: ys, List.forall_mem_cons.mpr ⟨hy, hys⟩, rfl⟩

theorem gives_wrapped {p : Prog Value} {v : Value} (hp : G.gives p v) :
    G.gives (W.wrapped p) (W.wrap v) :=
  G.bind hp (G.pure _)

end Wrapping

namespace Definition.Sums

variable (h : inner.Sums G M)

include h

/-- A layer that keeps what was supplied beneath gives the same sums. -/
theorem kept (layer : String) (hs : ∀ op : Operation, op = .plus ∨ op = .empty ∨ op = .alt →
      s.ops op = (Seed.keeping inner layer).ops op) (hd : s.definition? i = some d) :
    d.Sums G M := by
  have hkeeps {op : Operation} (hop : op = .plus ∨ op = .empty ∨ op = .alt) :
      s.ops op = if inner.supplies op then some (inner.table op) else none := by
    rw [hs op hop]
    rcases hop with rfl | rfl | rfl <;> rfl
  have hgiven {op : Operation} (hop : op = .plus ∨ op = .empty ∨ op = .alt) {f : Signature op}
      (hf : s.ops op = some f) : inner.table op = f := by
    rw [hkeeps hop] at hf
    split at hf
    · exact Option.some.inj hf
    · cases hf
  have hsupplies {op : Operation} (hop : op = .plus ∨ op = .empty ∨ op = .alt) :
      s.supplies op = inner.supplies op := by
    rw [Seed.supplies, hkeeps hop]
    cases inner.supplies op <;> rfl
  refine Seed.GivesSums.definition? ⟨?_, ?_, ?_, ?_⟩ hd
  · intro plus hplus
    rw [← hgiven (.inl rfl) hplus]
    exact h.plus
  · intro empty hempty
    rw [← hgiven (.inr (.inl rfl)) hempty]
    exact h.empty
  · intro alt halt
    rw [← hgiven (.inr (.inr rfl)) halt]
    exact h.alt
  · rw [hsupplies (.inl rfl), hsupplies (.inr (.inl rfl)), hsupplies (.inr (.inr rfl))]
    exact h.source

/-- With escape control, in both modes. -/
theorem escaping {escape : Bool} (hd : inner.escaping escape c = (.ok d, c')) : d.Sums G M := by
  cases escape with
  | false =>
    cases hd
    exact h
  | true =>
    obtain ⟨i, hd⟩ := definition?_of_withEscapeControl hd
    refine h.kept "escape" (fun op hop => ?_) hd
    rw [Escape.seed]
    rcases hop with rfl | rfl | rfl <;> split <;> rfl

theorem coercing {coercion : Bool} (hd : inner.coercing coercion c = (.ok d, c')) :
    d.Sums G M := by
  cases coercion with
  | false =>
    cases hd
    exact h
  | true =>
    obtain ⟨i, hd⟩ := definition?_of_withCoercion hd
    refine h.kept "coerce" (fun op hop => ?_) hd
    rcases hop with rfl | rfl | rfl <;> rfl

theorem context {mode : ContextMode} {id : DefId}
    (hd : (inner.contextSeed mode id).definition? i = some d) : d.Sums G M := by
  refine h.kept "context" (fun op hop => ?_) hd
  rcases hop with rfl | rfl | rfl <;> cases mode <;> rfl

theorem withContext {mode : ContextMode} (hd : inner.withContext mode c = (.ok d, c')) :
    d.Sums G M := by
  by_cases hmode : mode = .off
  · subst hmode
    cases hd
    exact h
  · obtain ⟨i, hd⟩ := definition?_of_withContext hmode hd
    exact h.context hd

/-- A carrier wraps what is given. -/
theorem carrier {w : Packing} (hd : (w.seed inner).definition? i = some d) :
    d.Sums G (M.wrapped w.wrapping) := by
  refine Seed.GivesSums.definition? (s := w.seed inner) ⟨?_, ?_, ?_, .inl ⟨rfl, rfl⟩⟩ hd
  · rintro _ ⟨⟩ _ _ ⟨a, ha, rfl⟩ ⟨b, hb, rfl⟩
    have hsum := Wrapping.gives_wrapped (W := w.wrapping) (h.plus ha hb)
    simp only [ValueMonoid.wrapped, Wrapping.unwrap_wrap]
    exact G.bind (w.gives_unpackBoth a b) hsum
  · rintro _ ⟨⟩
    exact Wrapping.gives_wrapped (W := w.wrapping) h.empty
  · rintro _ ⟨⟩ xs hxs
    obtain ⟨ys, hys, rfl⟩ := Wrapping.exists_map hxs
    rw [ValueMonoid.sum_wrapped]
    exact G.bind (w.gives_unpackAll ys)
      (Wrapping.gives_wrapped (W := w.wrapping) (h.alt ys hys))

theorem carried {brand : Option Brand} (hd : inner.carried brand c = (.ok d, c')) :
    ∃ W : Wrapping, (∀ v, W.wrap v = v.packed brand) ∧ d.Sums G (M.wrapped W) := by
  cases brand with
  | none =>
    cases hd
    exact ⟨.none, fun _ => rfl, M.wrapped_none.symm ▸ h⟩
  | some brand =>
    obtain ⟨i, hd⟩ := definition?_of_withCarrier hd
    exact ⟨_, fun _ => rfl, h.carrier hd⟩

theorem withLayers {o : Options} {brand : Option Brand}
    (hd : inner.withLayers o brand c = (.ok d, c')) :
    ∃ W : Wrapping, (∀ v, W.wrap v = v.packed brand) ∧ d.Sums G (M.wrapped W) := by
  obtain ⟨d₁, c₁, d₂, c₂, c₃, hcarried, hcoercing, hcontext, -⟩ := stages_of_withLayers hd
  obtain ⟨W, hwrap, h₁⟩ := h.carried hcarried
  exact ⟨W, hwrap, (h₁.coercing hcoercing).withContext hcontext⟩

end Definition.Sums

namespace Seed.GivesSums

/-- A seed is completed into a definition that gives its sums, also with a context put back on
top. -/
theorem complete (h : s.GivesSums G M) (hd : s.complete c = (.ok d, c')) : d.Sums G M := by
  obtain ⟨inner, i, c₁, c₂, hinner, hcontext⟩ := context_of_complete hd
  exact (h.definition? hinner).withContext hcontext

/-- What is built on a seed gives its sums, packed. -/
theorem build {o : Options} (h : s.GivesSums G M) (hd : s.build o c = (.ok d, c')) :
    ∃ W : Wrapping, W.wrap = o.packed d ∧ d.Sums G (M.wrapped W) := by
  obtain ⟨d₀, c₀, e, c₁, brand, c₂, hcomplete, hescaping, hbrand, hlayers⟩ := stages_of_build hd
  obtain ⟨W, hwrap, hsums⟩ := ((h.complete hcomplete).escaping hescaping).withLayers hlayers
  refine ⟨W, funext fun a => (hwrap a).trans ?_, hsums⟩
  have hd := (Definition.wraps_of_withLayers hlayers).1
  unfold Options.packed
  cases hcarrier : o.carrier with
  | none => simp only [hbrand, hcarrier, Option.map_none, Value.packed]
  | some name => simp only [hd, hbrand, hcarrier, Option.map_some, Option.some_or]

end Seed.GivesSums

/-! ## The laws -/

namespace Definition

/-- The laws of alternatives on effect values. -/
structure MonoidLaws (d : Definition) (S : Setting) (E : Value → Prop) : Prop where
  assoc : ∀ {a b c}, E a → E b → E c →
    Prog.Equal S E (do d.table .plus (← d.table .plus a b) c)
      (do d.table .plus a (← d.table .plus b c))
  left : ∀ {a}, E a → Prog.Equal S E (do d.table .plus (← d.table .empty) a) (pure a)
  right : ∀ {a}, E a → Prog.Equal S E (do d.table .plus a (← d.table .empty)) (pure a)
  alt_nil : (d.table .alt []).Equal S E (d.table .empty)
  alt_singleton : ∀ {x}, E x → (d.table .alt [x]).Equal S E (pure x)
  alt_pair : ∀ {a b}, E a → E b → (d.table .alt [a, b]).Equal S E (d.table .plus a b)
  alt_append : ∀ {xs ys}, (∀ x ∈ xs, E x) → (∀ y ∈ ys, E y) →
    Prog.Equal S E (d.table .alt (xs ++ ys))
      (do d.table .plus (← d.table .alt xs) (← d.table .alt ys))

/-- What computes the sums of a monoid obeys the laws. -/
theorem Sums.monoidLaws {S : Setting} (h : d.Sums (.computing S) M) : d.MonoidLaws S M.effect where
  assoc {a b c} ha hb hc := by
    have hleft := (h.plus ha hb).bind (k := fun sum => d.table .plus sum c)
      (h.plus (M.plus_mem ha hb) hc)
    have hright := (h.plus hb hc).bind (h.plus ha (M.plus_mem hb hc))
    rw [M.assoc ha hb hc] at hleft
    exact .of_computes_both (M.plus_mem ha (M.plus_mem hb hc)) hleft hright
  left {a} ha := by
    have hleft := h.empty.bind (k := fun sum => d.table .plus sum a) (h.plus M.empty_mem ha)
    rw [M.left ha] at hleft
    exact .of_computes_both ha hleft (.pure _)
  right ha := by
    have hright := h.empty.bind (h.plus ha M.empty_mem)
    rw [M.right ha] at hright
    exact .of_computes_both ha hright (.pure _)
  alt_nil := .of_computes_both M.empty_mem (h.alt [] nofun) h.empty
  alt_singleton {x} hx := by
    have halt := h.alt [x] (by simpa using hx)
    rw [M.sum_singleton hx] at halt
    exact .of_computes_both hx halt (.pure x)
  alt_pair {a b} ha hb := by
    have halt := h.alt [a, b] (by simp [ha, hb])
    rw [M.sum_pair hb] at halt
    exact .of_computes_both (M.plus_mem ha hb) halt (h.plus ha hb)
  alt_append hxs hys := by
    have hboth := h.alt _ (List.forall_mem_append.mpr ⟨hxs, hys⟩)
    rw [M.sum_append hxs hys] at hboth
    have hx := M.sum_mem hxs
    have hy := M.sum_mem hys
    exact .of_computes_both (M.plus_mem hx hy) hboth
      ((h.alt _ hxs).bind ((h.alt _ hys).bind (h.plus hx hy)))

end Definition

/-- Only `alt` is supplied, and it gives sums of lists. -/
structure Seed.GivesAlt (s : Seed) (G : Prog.Giving) (A : ListSums) : Prop where
  plus : s.ops .plus = none
  empty : s.ops .empty = none
  alt : ∃ alt, s.ops .alt = some alt ∧ ∀ {xs}, (∀ x ∈ xs, A.effect x) →
    G.gives (alt xs) (A.sum xs)

theorem Seed.GivesAlt.givesSums {A : ListSums} (h : s.GivesAlt G A) : s.GivesSums G A.monoid := by
  obtain ⟨alt, halt, hsum⟩ := h.alt
  refine ⟨fun hplus => ?_, fun hempty => ?_, fun halt' xs hxs => ?_, .inr ⟨?_, ?_, ?_⟩⟩
  · rw [h.plus] at hplus
    cases hplus
  · rw [h.empty] at hempty
    cases hempty
  · obtain rfl := Option.some.inj (halt.symm.trans halt')
    rw [A.sum_monoid hxs]
    exact hsum hxs
  all_goals simp [Seed.supplies, h.plus, h.empty, halt]

/-- Alternatives form a monoid however they are supplied and layered: by `plus` and `empty` that
form one, with an `alt`, if there is one too, that computes their sums, or only by an `alt` that
computes sums of lists. -/
theorem Seed.build_alternatives {S : Setting} {o : Options} {E : Value → Prop}
    (hgiven : (∃ M : ValueMonoid, M.effect = E ∧ s.GivesSums (.computing S) M) ∨
      ∃ A : ListSums, A.effect = E ∧ s.GivesAlt (.computing S) A)
    (hbuild : s.build o c = (.ok d, c')) :
    d.MonoidLaws S fun v => ∃ a, E a ∧ v = o.packed d a := by
  obtain ⟨M, rfl, hsums⟩ : ∃ M : ValueMonoid, M.effect = E ∧ s.GivesSums (.computing S) M := by
    rcases hgiven with hsums | ⟨A, hA, halt⟩
    · exact hsums
    · exact ⟨A.monoid, hA, halt.givesSums⟩
  obtain ⟨W, hwrap, hsums⟩ := hsums.build hbuild
  exact hwrap ▸ hsums.monoidLaws

/-! ## Lists of results -/

namespace Effects

/-- Concatenation. -/
def concatenation : ValueMonoid where
  effect v := v.isList = true
  plus a b := .list (items a ++ items b)
  empty := .list []
  plus_mem _ _ := rfl
  empty_mem := rfl
  assoc _ _ _ := by simp [items]
  left ha := (eq_list_of_isList ha).symm
  right {a} ha := by
    change Value.list (items a ++ []) = a
    rw [List.append_nil]
    exact (eq_list_of_isList ha).symm

/-- Concatenation of any number of lists. -/
def concatenations : ListSums where
  effect v := v.isList = true
  sum xs := .list (xs.flatMap items)
  sum_mem _ := rfl
  singleton hx := by
    rw [List.flatMap_singleton]
    exact (eq_list_of_isList hx).symm
  flatten _ _ := by
    simp [items, List.flatMap_def, List.map_flatten, List.flatten_flatten, Function.comp_def]

theorem givesSums_results : results.GivesSums G concatenation := by
  refine ⟨?_, ?_, nofun, .inl ⟨rfl, rfl⟩⟩
  · rintro _ ⟨⟩ a b ha hb
    rw [eq_list_of_isList ha, eq_list_of_isList hb]
    exact G.pure _
  · rintro _ ⟨⟩
    exact G.pure _

/-- Lists of every possible result, with only an `alt` for alternatives. -/
def joined : Seed :=
  { Seed.named "joined" with
    ops := fun
      | .pure => some fun v => pure (.list [v])
      | .coerce => some fun v => pure (if v.isList then v else .list [v])
      | .alt => some fun xs => pure (.list (xs.flatMap items))
      | _ => none }

theorem givesAlt_joined : joined.GivesAlt G concatenations :=
  ⟨rfl, rfl, _, rfl, fun _ => G.pure _⟩

/-- Lists under every layer, with alternatives given either way. -/
theorem alternatives_results_joined :
    let o : Options := ⟨true, some "wrapped", true, .full, .home⟩
    (∃ d c, results.build o .empty = (.ok d, c) ∧
      d.MonoidLaws (.silent c d.id) fun v => ∃ a, a.isList = true ∧ v = o.packed d a) ∧
    ∃ d c, joined.build o .empty = (.ok d, c) ∧
      d.MonoidLaws (.silent c d.id) fun v => ∃ a, a.isList = true ∧ v = o.packed d a := by
  intro o
  obtain ⟨d, c, hresults⟩ : ∃ d c, results.build o .empty = (.ok d, c) := ⟨_, _, rfl⟩
  obtain ⟨d', c', hjoined⟩ : ∃ d c, joined.build o .empty = (.ok d, c) := ⟨_, _, rfl⟩
  exact ⟨⟨d, c, hresults, Seed.build_alternatives (.inl ⟨_, rfl, givesSums_results⟩) hresults⟩,
    d', c', hjoined, Seed.build_alternatives (.inr ⟨_, rfl, givesAlt_joined⟩) hjoined⟩

/-- Where `plus` and `empty` form a monoid, but an `alt` is given too that has nothing to do with
it, the sum of no alternatives need not be empty. -/
theorem alternatives_unrelated :
    let s := results.set .alt fun _ => pure (.list [.int 0])
    s.ops .plus = results.ops .plus ∧ s.ops .empty = results.ops .empty ∧
      (∀ S, results.GivesSums (.computing S) concatenation) ∧
      ∃ d c, s.build .standard .empty = (.ok d, c) ∧
        d.table .alt [] = pure (.list [.int 0]) ∧ d.table .empty = pure (.list []) ∧
        ¬ d.MonoidLaws (.silent c d.id) fun v => ∃ a, a.isList = true ∧
          v = Options.standard.packed d a := by
  intro s
  obtain ⟨d, c, hbuild, halt, hempty⟩ : ∃ d c, s.build .standard .empty = (.ok d, c) ∧
      d.table .alt [] = pure (.list [.int 0]) ∧ d.table .empty = pure (.list []) :=
    ⟨_, _, rfl, rfl, rfl⟩
  refine ⟨rfl, rfl, fun S => givesSums_results, d, c, hbuild, halt, hempty, fun h => ?_⟩
  have hnil := h.alt_nil
  rw [halt, hempty] at hnil
  have hcomputes := hnil.computes (.pure (Value.list []))
  have hhosted : (World.hosting d.id).Uses d.id :=
    ⟨_, List.mem_cons_self, List.mem_cons_self⟩
  obtain ⟨n, hruns⟩ := hcomputes
  obtain ⟨w, hrun, -⟩ := hruns n (.hosting d.id) (Nat.le_refl n) hhosted
  simp at hrun

end Effects

end EffectLayers
