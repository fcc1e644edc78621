import EffectLayers.Effects
import EffectLayers.Proofs.Assembly

/-!
# Overrides

A definition is extended, given a replacement for one operation, and completed again. Without a
context layer the replacement is the operation. A context layer is put back on top of it, and
derives some operations anew: for those the replacement is lost.

## Main definitions

* `Seed.Made`, `Definition.Made`: the seeds and the definitions that can be made.
* `Definition.beneath`: the definition beneath the context layers.
* `ContextMode.derives`: the operations that a context layer derives anew.
* `Installer.wrap`: an operation whose callbacks run with a definition installed.

## Main statements

* `Definition.Made.grounded`: what every definition that can be made is like.
* `Seed.override_taken_iff`: which overrides take effect.
-/

namespace EffectLayers

/-! ## What can be made -/

mutual

/-- The seeds that can be made. -/
inductive Seed.Made : Seed → Prop where
  | plain (name : Option String) (ops : (op : Operation) → Option (Signature op)) :
      Seed.Made ⟨name, none, none, none, none, ops⟩
  | set {s : Seed} (hs : Seed.Made s) (op : Operation) (f : Signature op) : Seed.Made (s.set op f)
  | extend {d : Definition} (hd : Definition.Made d) (home : BrandId → Option DefId)
      (layer : String) : Seed.Made (d.extend home layer)

/-- The definitions that can be made. -/
inductive Definition.Made : Definition → Prop where
  | complete {s : Seed} {c c' : Catalog} {d : Definition} (hs : Seed.Made s)
      (h : s.complete c = (.ok d, c')) : Definition.Made d
  | escape {inner d : Definition} {c c' : Catalog} (hinner : Definition.Made inner)
      (h : inner.withEscapeControl c = (.ok d, c')) : Definition.Made d
  | carrier {inner d : Definition} {brand : Brand} {c c' : Catalog}
      (hinner : Definition.Made inner) (h : inner.withCarrier brand c = (.ok d, c')) :
      Definition.Made d
  | coercion {inner d : Definition} {c c' : Catalog} (hinner : Definition.Made inner)
      (h : inner.withCoercion c = (.ok d, c')) : Definition.Made d
  | context {inner d : Definition} {mode : ContextMode} {c c' : Catalog}
      (hinner : Definition.Made inner) (h : inner.withContext mode c = (.ok d, c')) :
      Definition.Made d

end

namespace Definition

/-- Every definition of the lineage was given `pure`, and only layers have a context. -/
def Grounded : Definition → Prop
  | ⟨_, _, base, context, _, supplied, _⟩ =>
    supplied .pure = true ∧ context ≠ some .off ∧
      match base with
      | some d => d.Grounded
      | none => context = none

/-- The definition beneath the context layers. -/
def beneath : Definition → Definition
  | ⟨_, _, some base, some _, _, _, _⟩ => base.beneath
  | d => d

/-! ## Grounded definitions -/

theorem Grounded.supplies_pure {d : Definition} (h : d.Grounded) : d.supplies .pure = true := by
  cases d
  rw [Grounded.eq_def] at h
  exact h.1

theorem Grounded.context_ne_off {d : Definition} (h : d.Grounded) : d.context ≠ some .off := by
  cases d
  rw [Grounded.eq_def] at h
  exact h.2.1

theorem grounded_of_definition? {s : Seed} {id : DefId} {d : Definition}
    (hd : s.definition? id = some d) (hcontext : s.context ≠ some .off)
    (hbase : ∀ b, s.base = some b → b.Grounded) (hnone : s.base = none → s.context = none) :
    d.Grounded := by
  obtain ⟨lift, hlift, rfl⟩ := Option.map_eq_some_iff.mp hd
  rw [Grounded.eq_def]
  refine ⟨Option.isSome_iff_exists.mpr ⟨lift, hlift⟩, hcontext, ?_⟩
  cases h : s.base with
  | some b => exact hbase b h
  | none => exact hnone h

theorem grounded_of_layer {s : Seed} {id : DefId} {inner d : Definition}
    (hinner : inner.Grounded) (hbase : s.base = some inner) (hcontext : s.context ≠ some .off)
    (hd : s.definition? id = some d) : d.Grounded := by
  refine grounded_of_definition? hd hcontext (fun b hb => ?_) fun hb => ?_
  · rw [hbase] at hb
    exact Option.some.inj hb ▸ hinner
  · rw [hbase] at hb
    cases hb

theorem grounded_withContext {inner d : Definition} {mode : ContextMode} {c c' : Catalog}
    (hinner : inner.Grounded) (h : inner.withContext mode c = (.ok d, c')) : d.Grounded := by
  by_cases hmode : mode = .off
  · subst hmode
    cases h
    exact hinner
  · obtain ⟨id, hd⟩ := definition?_of_withContext hmode h
    exact grounded_of_layer hinner rfl (fun hc => hmode (Option.some.inj hc)) hd

theorem Grounded.beneath : (d : Definition) → d.Grounded → d.beneath.Grounded
  | ⟨_, _, some base, some _, _, _, _⟩, h => by
    rw [Grounded.eq_def] at h
    exact Grounded.beneath base h.2.2
  | ⟨_, _, none, some _, _, _, _⟩, h => by
    rw [Grounded.eq_def] at h
    cases h.2.2
  | ⟨_, _, some _, none, _, _, _⟩, h => h
  | ⟨_, _, none, none, _, _, _⟩, h => h

end Definition

/-- A seed of everything that the definition beneath the context layers of `d` was given, with
the context of `d` to be put back on top. -/
structure Seed.Extends (s : Seed) (d : Definition) : Prop where
  context : s.context = none
  base : s.base = some d.beneath
  ops : ∀ op, s.ops op = if d.beneath.supplies op then some (d.beneath.table op) else none
  reinstall : s.reinstall.map Reinstall.mode = d.context

namespace Definition

theorem extends_extend (home : BrandId → Option DefId) (layer : String) :
    (d : Definition) → d.Grounded → (d.extend home layer).Extends d
  | ⟨_, _, some base, some _, _, _, _⟩, h => by
    rw [Grounded.eq_def] at h
    obtain ⟨hcontext, hbase, hops, -⟩ := extends_extend home layer base h.2.2
    exact ⟨hcontext, hbase, hops, rfl⟩
  | ⟨_, _, none, some _, _, _, _⟩, h => by
    rw [Grounded.eq_def] at h
    cases h.2.2
  | ⟨_, _, some _, none, _, _, _⟩, _ => ⟨rfl, rfl, fun _ => rfl, rfl⟩
  | ⟨_, _, none, none, _, _, _⟩, _ => ⟨rfl, rfl, fun _ => rfl, rfl⟩

end Definition

/-- What a seed that can be made is like. -/
structure Seed.Grounded (s : Seed) : Prop where
  context : s.context = none
  base : ∀ b, s.base = some b → b.Grounded

theorem Seed.Grounded.definition {s : Seed} (hs : s.Grounded) {c c' : Catalog} {d : Definition}
    (h : s.complete c = (.ok d, c')) : d.Grounded := by
  obtain ⟨inner, id, c₁, c₂, hinner, hcontext⟩ := Seed.context_of_complete h
  exact Definition.grounded_withContext
    (Definition.grounded_of_definition? hinner (by simp [hs.context]) hs.base fun _ => hs.context)
    hcontext

theorem Escape.base_seed (inner : Definition) : (seed inner).base = some inner := by
  rw [seed]
  split <;> rfl

theorem Escape.context_seed (inner : Definition) : (seed inner).context = none := by
  rw [seed]
  split <;> rfl

mutual

theorem Seed.Made.grounded : {s : Seed} → s.Made → s.Grounded
  | _, .plain _ _ => ⟨rfl, nofun⟩
  | _, .set hs _ _ => ⟨hs.grounded.context, hs.grounded.base⟩
  | _, .extend hd home layer => by
    have h := Definition.extends_extend home layer _ hd.grounded
    refine ⟨h.context, fun b hb => ?_⟩
    rw [h.base] at hb
    exact Option.some.inj hb ▸ Definition.Grounded.beneath _ hd.grounded

theorem Definition.Made.grounded : {d : Definition} → d.Made → d.Grounded
  | _, .complete hs h => hs.grounded.definition h
  | _, .escape hinner h => by
    obtain ⟨id, hd⟩ := Definition.definition?_of_withEscapeControl h
    exact Definition.grounded_of_layer hinner.grounded (Escape.base_seed _)
      (by simp [Escape.context_seed]) hd
  | _, .carrier hinner h => by
    obtain ⟨id, hd⟩ := Definition.definition?_of_withCarrier h
    exact Definition.grounded_of_layer hinner.grounded rfl (Option.some_ne_none _).symm hd
  | _, .coercion hinner h => by
    obtain ⟨id, hd⟩ := Definition.definition?_of_withCoercion h
    exact Definition.grounded_of_layer hinner.grounded rfl (Option.some_ne_none _).symm hd
  | _, .context hinner h => Definition.grounded_withContext hinner.grounded h

end

/-- What is built from a seed that can be made can be made. -/
theorem Seed.Made.build {s : Seed} (hs : s.Made) {o : Options} {c c' : Catalog} {d : Definition}
    (h : s.build o c = (.ok d, c')) : d.Made := by
  have hlayers {inner : Definition} (hinner : inner.Made) {brand : Option Brand} {c : Catalog}
      (h : inner.withLayers o brand c = (.ok d, c')) : d.Made := by
    obtain ⟨d₁, c₁, d₂, c₂, c₃, h₁, h₂, h₃, -⟩ := Definition.stages_of_withLayers h
    have hd₁ : d₁.Made := by
      cases brand with
      | none => cases h₁; exact hinner
      | some brand => exact .carrier hinner h₁
    have hd₂ : d₂.Made := by
      cases hcoercion : o.coercion with
      | false => rw [hcoercion] at h₂; cases h₂; exact hd₁
      | true => rw [hcoercion] at h₂; exact .coercion hd₁ h₂
    exact .context hd₂ h₃
  obtain ⟨d₀, c₀, e, c₁, brand, c₂, hcomplete, hescaping, -, h⟩ := stages_of_build h
  have he : e.Made := by
    cases hescape : o.escape with
    | false => rw [hescape] at hescaping; cases hescaping; exact .complete hs hcomplete
    | true => rw [hescape] at hescaping; exact .escape (.complete hs hcomplete) hescaping
  exact hlayers he h

/-! ## Context layers -/

/-- The operations that a context layer derives anew, whatever the definition beneath it was
given. -/
def ContextMode.derives : ContextMode → Operation → Bool
  | _, .join | _, .pair | _, .const | _, .unshiftTo | _, .reify | _, .reflect => true
  | .full, .seq => false
  | _, .seq => true
  | _, _ => false

namespace Installer

/-- The operation with every callback but the test and the step of a loop run with the
definition installed. -/
def wrapAll (a : Installer) : (op : Operation) → Signature op → Signature op
  | .bind, g => fun x f => g x (a.callback f)
  | .handle, g => fun x f => g x (a.callback f)
  | .cleanup, g => fun x f => g x (f.map a.around)
  | .iterate, g => fun body v => g (a.callback body) v
  | .forPar, g => fun test body step v => g test (a.callback body) step v
  | .block, g => fun body => g (a.body body)
  | .scope, g => fun body => g (a.body body)
  | .seq, g => fun source => g (a.source source)
  | .run, g => fun f => g (f.map a.around)
  | _, g => g

/-- The operation with its callbacks run with the definition installed as the mode asks for. -/
def wrap (a : Installer) : ContextMode → (op : Operation) → Signature op → Signature op
  | .full, op, g => a.wrapAll op g
  | _, .run, g => fun f => g (f.map a.around)
  | _, _, g => g

/-- What a context layer makes of an operation that the definition beneath it was given. -/
theorem ops_contextSeed {inner : Definition} {mode : ContextMode} {self : DefId} {op : Operation}
    (h : inner.supplies op = true) :
    (inner.contextSeed mode self).ops op =
      if mode.derives op then none
      else some (wrap ⟨inner.name ++ "+context", self⟩ mode op (inner.table op)) := by
  cases mode <;> cases op <;>
    simp [Definition.contextSeed, ops, wrapped, forwards, Seed.keeping, Seed.keeps, wrap, wrapAll,
      ContextMode.derives, h]

end Installer

/-! ## Overriding -/

theorem Definition.supplies_pure_contextSeed (inner : Definition) (mode : ContextMode)
    (self : DefId) : (inner.contextSeed mode self).supplies .pure = true := by
  cases mode <;> rfl

/-- A context layer on top of a definition that was given an operation. -/
theorem Definition.context_given {inner e : Definition} {mode : ContextMode} {id : DefId}
    {op : Operation} (h : inner.supplies op = true)
    (he : (inner.contextSeed mode id).definition? id = some e) :
    (e.supplies op = true ↔ mode.derives op = false) ∧
      (e.supplies op = true →
        e.table op = Installer.wrap ⟨e.name, e.id⟩ mode op (inner.table op)) := by
  have hops : (inner.contextSeed mode id).ops op = _ := Installer.ops_contextSeed h
  have hsupplies := Seed.supplies_of_definition? he op
  have hname : inner.name ++ "+context" = e.name := by
    obtain ⟨lift, -, rfl⟩ := Option.map_eq_some_iff.mp he
    change inner.name ++ ("+" ++ "context") = inner.name ++ "+" ++ "context"
    exact String.append_assoc.symm
  rw [Seed.id_of_definition? he, ← hname]
  cases hderives : mode.derives op with
  | true =>
    rw [hderives, if_pos rfl] at hops
    simp [hsupplies, Seed.supplies, hops]
  | false =>
    rw [hderives, if_neg Bool.false_ne_true] at hops
    have hgiven := Seed.table_of_definition? he hops
    exact ⟨⟨fun _ => rfl, fun _ => hgiven.1⟩, fun _ => hgiven.2⟩

namespace Seed

/-- Extending a definition that was built, replacing one operation and completing the seed never
fails. The result was given the replacement unless a context layer derives the operation anew;
what was given is the replacement itself, its callbacks wrapped by the context layer. -/
theorem override_taken_iff {s : Seed} (hs : s.Made) {o : Options} {c c₁ : Catalog}
    {d : Definition} (hbuild : s.build o c = (.ok d, c₁)) (home : BrandId → Option DefId)
    (layer : String) (op : Operation) (g : Signature op) (c₂ : Catalog) :
    ∃ e c₃, ((d.extend home layer).set op g).complete c₂ = (.ok e, c₃) ∧
      (e.supplies op = true ↔ ∀ mode, d.context = some mode → mode.derives op = false) ∧
      (e.supplies op = true → e.table op =
        d.context.elim g fun mode => Installer.wrap ⟨e.name, e.id⟩ mode op g) := by
  have hd : d.Grounded := (hs.build hbuild).grounded
  have hext := Definition.extends_extend home layer d hd
  let t := (d.extend home layer).set op g
  have hgiven : t.ops op = some g := ops_set_self _ op g
  have hpure : t.supplies .pure = true := by
    by_cases hop : Operation.pure = op
    · subst hop
      exact supplies_set_self _ _ g
    · have hbeneath := (Definition.Grounded.beneath d hd).supplies_pure
      simp [t, supplies, ops_set_of_ne _ g hop, hext.ops, hbeneath]
  suffices h : Assembly.Yields t.complete c₂ fun e _ =>
      (e.supplies op = true ↔ ∀ mode, d.context = some mode → mode.derives op = false) ∧
      (e.supplies op = true → e.table op =
        d.context.elim g fun mode => Installer.wrap ⟨e.name, e.id⟩ mode op g) by
    obtain ⟨e, c₃, hrun, -, he⟩ := h
    exact ⟨e, c₃, hrun, he⟩
  have hreinstall : t.reinstall.map Reinstall.mode = d.context := hext.reinstall
  cases hcontext : d.context with
  | none =>
    rw [hcontext, Option.map_eq_none_iff] at hreinstall
    refine yields_complete hreinstall hpure fun e id he _ => ?_
    have htable := table_of_definition? he hgiven
    have hnone (mode : ContextMode) : (none : Option ContextMode) ≠ some mode :=
      (Option.some_ne_none mode).symm
    exact ⟨⟨fun _ mode h => absurd h (hnone mode), fun _ => htable.1⟩, fun _ => htable.2⟩
  | some mode =>
    rw [hcontext, Option.map_eq_some_iff] at hreinstall
    obtain ⟨⟨mode', brand⟩, hreinstall, rfl⟩ := hreinstall
    have hmode : mode' ≠ .off := fun h => hd.context_ne_off (h ▸ hcontext)
    refine .bind (P := fun inner _ => inner.supplies op = true ∧ inner.table op = g)
      (yields_assemble hpure fun inner id hinner _ => table_of_definition? hinner hgiven)
      fun inner c _ hinner => ?_
    rw [hreinstall]
    simp only [Option.some.injEq, forall_eq', Definition.withContext_of_ne_off inner hmode]
    refine .bind (P := fun e _ => (e.supplies op = true ↔ mode'.derives op = false) ∧
      (e.supplies op = true → e.table op = Installer.wrap ⟨e.name, e.id⟩ mode' op g)) ?_
      fun e c _ he => ?_
    · refine yields_assembleWith (Definition.supplies_pure_contextSeed _ _ _) fun e id he _ => ?_
      exact hinner.2 ▸ Definition.context_given hinner.1 he
    · cases brand with
      | none => exact .pure he
      | some brand => exact .adopting he

/-- Replacing `pure` of the identity with every layer. -/
theorem override_taken_pure :
    ∃ d c₁ e c₃, Effects.identity.build .standard .empty = (.ok d, c₁) ∧
      ((d.extend c₁.home "loud").set .pure fun v => pure (.list [v])).complete c₁ = (.ok e, c₃) ∧
      e.supplies .pure = true ∧ e.table .pure (.int 1) = pure (.list [.int 1]) := by
  obtain ⟨d, c₁, hbuild, hcontext⟩ : ∃ d c₁,
      Effects.identity.build .standard .empty = (.ok d, c₁) ∧ d.context = some .full :=
    ⟨_, _, rfl, rfl⟩
  obtain ⟨e, c₃, hcomplete, hsupplies, htable⟩ :=
    override_taken_iff (.plain _ _) hbuild c₁.home "loud" .pure (fun v => pure (.list [v])) c₁
  have hgiven : e.supplies .pure = true := hsupplies.mpr fun mode h => by
    obtain rfl := Option.some.inj (hcontext.symm.trans h)
    rfl
  refine ⟨d, c₁, e, c₃, hbuild, hcomplete, hgiven, ?_⟩
  have htable := htable hgiven
  rw [hcontext] at htable
  rw [htable]
  rfl

/-- Replacing `reflect` there is lost: the context layer derives it anew. -/
theorem override_lost_reflect :
    ∃ d c₁ e c₃, Effects.identity.build .standard .empty = (.ok d, c₁) ∧
      ((d.extend c₁.home "loud").set .reflect fun v => pure (.list [v])).complete c₁ =
        (.ok e, c₃) ∧
      e.supplies .reflect = false ∧ e.table .reflect (.int 1) = pure (.int 1) :=
  ⟨_, _, _, _, rfl, rfl, rfl, rfl⟩

end Seed

end EffectLayers
