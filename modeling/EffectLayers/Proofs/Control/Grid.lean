import EffectLayers.Effects
import EffectLayers.Proofs.Assembly
import EffectLayers.Proofs.Control.Escaping
import EffectLayers.Proofs.Control.Simulation

/-!
# Control programs over the grid

Every definition of the grid is faithful, so a control program ends alike on any two of them:
with the same log, and with results that decode to the same exit.

## Main definitions

* `Definition.encoding`: how the effect values of a definition of the grid encode exits.
* `Definition.Implements`: a definition that is faithful once it is known.

## Main statements

* `Effects.yields_grid`: the grid can be built, and each of its members implements control.
* `Effects.execution_agrees`: what a control program does on two definitions of the grid.
-/

namespace EffectLayers

namespace Definition

/-- The name of the definition that all the others of the lineage are layered on. -/
def rootName : Definition → String
  | ⟨_, name, base, _, _, _, _⟩ =>
    match base with
    | some d => d.rootName
    | none => name

/-- How effect values encode exits, for layers on top of the effects of the grid. -/
def encoding (d : Definition) : Encoding := if d.rootName = "either" then .tagged else .direct

/-- The definition is faithful in every catalog, whichever definition is installed. -/
def Robust (d : Definition) : Prop :=
  ∀ c host, host ∈ c.lineage host → ∃ enc, d.Faithful c host enc d.encoding.encode

/-- The definition is faithful where it is known and installed itself. -/
def Implements (d : Definition) : Prop :=
  ∀ c, d.KnownIn c → ∃ enc, d.Faithful c d.id enc d.encoding.encode

theorem Robust.implements {d : Definition} (h : d.Robust) : d.Implements :=
  fun c hd => h c d.id (mem_lineage hd)

theorem encoding_of_base {s : Seed} {inner d : Definition} {id : DefId}
    (hbase : s.base = some inner) (hd : s.definition? id = some d) :
    d.encoding = inner.encoding := by
  obtain ⟨lift, -, rfl⟩ := Option.map_eq_some_iff.mp hd
  simp only [encoding, rootName, hbase]

/-! ## The layers -/

section Layers

variable {c : Catalog} {inner : Definition}

theorem yields_withCarrier (h : inner.Robust) (brand : Brand) :
    (inner.withCarrier brand).Yields c fun d c => d.KnownIn c ∧ d.Robust := by
  refine Seed.yields_assemble rfl fun d id hd hknown => ⟨hknown, fun c host hhost => ?_⟩
  obtain ⟨enc, hinner⟩ := h c host hhost
  rw [encoding_of_base rfl hd]
  exact ⟨_, hinner.carrier brand hd⟩

theorem yields_withCoercion (hknown : inner.KnownIn c) (h : inner.Robust) :
    inner.withCoercion.Yields c fun d c => d.KnownIn c ∧ d.Robust := by
  obtain ⟨enc, hinner⟩ := h c inner.id (mem_lineage hknown)
  rw [withCoercion, if_pos hinner.coerces]
  refine Seed.yields_assemble rfl fun d id hd hknown => ⟨hknown, fun c host hhost => ?_⟩
  obtain ⟨enc, hinner⟩ := h c host hhost
  rw [encoding_of_base rfl hd]
  exact ⟨_, hinner.coercion hd⟩

theorem yields_withContext (hknown : inner.KnownIn c) (h : inner.Robust) (mode : ContextMode) :
    (inner.withContext mode).Yields c fun d c => d.KnownIn c ∧ d.Implements := by
  by_cases hmode : mode = .off
  · subst hmode
    exact .pure ⟨hknown, h.implements⟩
  rw [withContext_of_ne_off inner hmode]
  refine Seed.yields_assembleWith ?_ fun d id hd hknown => ⟨hknown, fun c hc => ?_⟩
  · cases mode <;> rfl
  · obtain ⟨enc, hinner⟩ := h c d.id (mem_lineage hc)
    obtain rfl := Seed.id_of_definition? hd
    rw [encoding_of_base rfl hd]
    exact ⟨enc, hinner.context (mem_lineage hc) hd⟩

theorem yields_withLayers (hknown : inner.KnownIn c) (h : inner.Robust) (o : Options)
    (brand : Option Brand) :
    (inner.withLayers o brand).Yields c fun d c => d.KnownIn c ∧ d.Implements := by
  rw [withLayers_eq]
  refine .bind (P := fun (d : Definition) c => d.KnownIn c ∧ d.Robust) ?_ fun d c _ hd => ?_
  · cases brand with
    | some brand => exact yields_withCarrier h brand
    | none => exact .pure ⟨hknown, h⟩
  refine .bind (P := fun (d : Definition) c => d.KnownIn c ∧ d.Robust) ?_ fun d c _ hd => ?_
  · cases o.coercion with
    | false => exact .pure hd
    | true => exact yields_withCoercion hd.1 hd.2
  refine .bind (yields_withContext hd.1 hd.2 o.context) fun d c _ hd => ?_
  cases brand with
  | none => exact .pure hd
  | some brand =>
    cases o.dispatch with
    | home => exact .adopting hd
    | ambient => exact .pure hd

/-- Building a seed, given what completing it and adding escape control yield. -/
theorem yields_build {s : Seed} {o : Options} {P : Definition → Catalog → Prop}
    (hcomplete : s.complete.Yields c P)
    (hescape : ∀ d c, P d c → (d.escaping o.escape).Yields c fun d c =>
      d.KnownIn c ∧ d.Robust) :
    (s.build o).Yields c fun d c => d.KnownIn c ∧ d.Implements := by
  rw [Seed.build_eq]
  refine .bind hcomplete fun d c _ hd => .bind (hescape d c hd) fun d c _ hd => ?_
  cases o.carrier with
  | some name =>
    refine .withBrand fun brand => ?_
    have hknown : d.KnownIn { c with nextBrand := c.nextBrand + 1 } := hd.1
    exact yields_withLayers hknown hd.2 o (some brand)
  | none => exact yields_withLayers hd.1 hd.2 o none

end Layers

end Definition

namespace Effects

variable {c : Catalog}

/-- An effect with escape control on top, under every combination of the other layers. -/
theorem yields_escaping {s : Seed} {o : Options} {e : Encoding} (ho : o.escape = true)
    (hreinstall : s.reinstall = none) (hpure : s.supplies .pure = true)
    (hencoding : ∀ i inner, s.definition? i = some inner → inner.encoding = e)
    (hfaithful : ∀ c host i j inner d, s.definition? i = some inner →
      (Escape.seed inner).definition? j = some d → d.Faithful c host e.encode e.encode) :
    (s.build o).Yields c fun d c => d.KnownIn c ∧ d.Implements := by
  refine Definition.yields_build (P := fun d _ => ∃ i, s.definition? i = some d)
    (Seed.yields_complete hreinstall hpure fun d i hd _ => ⟨i, hd⟩) fun inner c ⟨i, hinner⟩ => ?_
  rw [ho]
  have hbase : (Escape.seed inner).base = some inner ∧ (Escape.seed inner).supplies .pure := by
    rw [Escape.seed]
    split <;> exact ⟨rfl, rfl⟩
  refine Seed.yields_assemble hbase.2 fun d j hd hknown => ⟨hknown, fun c host _ => ?_⟩
  rw [Definition.encoding_of_base hbase.1 hd, hencoding i inner hinner]
  exact ⟨_, hfaithful c host i j inner d hinner hd⟩

theorem yields_looping : looping.Yields c fun s _ =>
    s.reinstall = none ∧ s.supplies .pure = true ∧
      ∀ k d, s.definition? k = some d → d.Robust := by
  refine .bind (P := fun inner _ => ∃ i, identity.definition? i = some inner)
    (Seed.yields_complete rfl rfl fun inner i hinner _ => ⟨i, hinner⟩) fun inner c _ hinner => ?_
  obtain ⟨i, hinner⟩ := hinner
  have hpure : (Escape.seed inner).supplies .pure = true := by
    obtain rfl := Option.some.inj hinner
    rfl
  refine .bind (P := fun d _ => ∃ j, (Escape.seed inner).definition? j = some d)
    (Seed.yields_assemble hpure fun d j hd _ => ⟨j, hd⟩) fun escaped c _ hescaped => ?_
  obtain ⟨j, hescaped⟩ := hescaped
  refine .readingHomes fun home => .pure ?_
  have hseed : (escaped.extend home "loops").reinstall = none ∧
      (escaped.extend home "loops").supplies .pure = true ∧
      (escaped.extend home "loops").base = some escaped ∧ escaped.encoding = .direct := by
    obtain rfl := Option.some.inj hinner
    obtain rfl := Option.some.inj hescaped
    exact ⟨rfl, rfl, rfl, rfl⟩
  refine ⟨hseed.1, hseed.2.1, fun k d hd c host _ => ?_⟩
  rw [Definition.encoding_of_base (by exact hseed.2.2.1) hd, hseed.2.2.2]
  exact ⟨_, .looping hinner hescaped hd⟩

/-- An effect that has escapes already, under every combination of the other layers. -/
theorem yields_escaped {s : Seed} {o : Options} (ho : o.escape = false)
    (hreinstall : s.reinstall = none) (hpure : s.supplies .pure = true)
    (hrobust : ∀ k d, s.definition? k = some d → d.Robust) :
    (s.build o).Yields c fun d c => d.KnownIn c ∧ d.Implements := by
  refine Definition.yields_build (P := fun d c => d.KnownIn c ∧ d.Robust)
    (Seed.yields_complete hreinstall hpure fun d i hd hknown => ⟨hknown, hrobust i d hd⟩)
    fun d c hd => ?_
  rw [ho]
  exact .pure hd

/-- Building a seed with each of the options. -/
theorem yields_buildAll {s : Seed} {os : List Options} {P : Definition → Prop}
    (h : ∀ o ∈ os, ∀ c, (s.build o).Yields c fun d c => d.KnownIn c ∧ P d) :
    (buildAll s os).Yields c fun ds c =>
      ds.length = os.length ∧ ∀ d ∈ ds, d.KnownIn c ∧ P d := by
  induction os generalizing c with
  | nil => exact .pure ⟨rfl, fun d hd => nomatch hd⟩
  | cons o os ih =>
    refine .bind (h o List.mem_cons_self c) fun d c _ hd => ?_
    refine .bind (ih fun o ho => h o (List.mem_cons_of_mem _ ho)) fun ds c hg hds => ?_
    refine .pure ⟨congrArg (· + 1) hds.1, fun d' hd' => ?_⟩
    rcases List.mem_cons.mp hd' with rfl | hmem
    · exact ⟨hd.1.mono hg, hd.2⟩
    · exact hds.2 d' hmem

theorem escape_of_mem_gridOptions {escape : Bool} {o : Options} (h : o ∈ gridOptions escape) :
    o.escape = escape := by
  simp only [gridOptions, List.mem_flatMap, List.mem_map] at h
  obtain ⟨-, -, -, -, -, -, rfl⟩ := h
  rfl

/-- The grid can be built from any catalog, and each of its members implements control. -/
theorem yields_grid : grid.Yields c fun ds c =>
    ds.length = 36 ∧ ∀ d ∈ ds, d.KnownIn c ∧ d.Implements := by
  refine .bind yields_looping fun loops c _ hloops => ?_
  refine .bind (yields_buildAll (P := Definition.Implements) fun o ho c =>
    yields_escaping (escape_of_mem_gridOptions ho) rfl rfl
      (fun i inner h => by obtain rfl := Option.some.inj h; rfl)
      fun _ _ _ _ _ _ => .threaded_identity) fun as c _ has => ?_
  refine .bind (yields_buildAll (P := Definition.Implements) fun o ho c =>
    yields_escaping (escape_of_mem_gridOptions ho) rfl rfl
      (fun i inner h => by obtain rfl := Option.some.inj h; rfl)
      fun _ _ _ _ _ _ => .native_either) fun bs c hg hbs => ?_
  refine .bind (yields_buildAll (P := Definition.Implements) fun o ho c =>
    yields_escaped (escape_of_mem_gridOptions ho) hloops.1 hloops.2.1 hloops.2.2)
    fun ls c hg' hls => .pure ⟨?_, fun d hd => ?_⟩
  · simp [has.1, hbs.1, hls.1, gridOptions, ContextMode.all]
  · simp only [List.mem_append] at hd
    rcases hd with (hd | hd) | hd
    · exact ⟨((has.2 d hd).1.mono hg).mono hg', (has.2 d hd).2⟩
    · exact ⟨(hbs.2 d hd).1.mono hg', (hbs.2 d hd).2⟩
    · exact hls.2 d hd

/-- A control program that ends on one definition of the grid ends on every other one, with any
larger budget and from any world: it logs the same, and the results encode the same exit, or are
the same fault. -/
theorem execution_agrees {c' : Catalog} {ds : List Definition} (hgrid : grid c = (.ok ds, c'))
    {d₁ d₂ : Definition} (hd₁ : d₁ ∈ ds) (hd₂ : d₂ ∈ ds) (p : Control 0 0) {b₁ b₂ : Nat}
    (hb : b₁ ≤ b₂) (w₁ w₂ : World) {r₁ : Except Fault Value} {w₁' : World}
    (hrun : (p.execution d₁.id).run c' b₁ w₁ = .finished r₁ w₁') :
    ∃ r₂ w₂', (p.execution d₂.id).run c' b₂ w₂ = .finished r₂ w₂' ∧
      ∃ (x : Except Fault (Exit ScopeId)) (l : List Value),
        r₁ = x.map d₁.encoding.encode ∧ r₂ = x.map d₂.encoding.encode ∧
        w₁'.log = w₁.log ++ l.toArray ∧ w₂'.log = w₂.log ++ l.toArray := by
  obtain ⟨ds', c'', hgrid', -, -, hall⟩ := yields_grid
  obtain ⟨hds, rfl⟩ := Prod.mk.inj (hgrid'.symm.trans hgrid)
  obtain rfl := Except.ok.inj hds
  obtain ⟨hknown₁, himplements₁⟩ := hall d₁ hd₁
  obtain ⟨hknown₂, himplements₂⟩ := hall d₂ hd₂
  obtain ⟨enc₁, hfaithful₁⟩ := himplements₁ c'' hknown₁
  obtain ⟨enc₂, hfaithful₂⟩ := himplements₂ c'' hknown₂
  have h₁ := Control.execution_shown hknown₁ hfaithful₁ p b₁ w₁
  have h₂ := Control.execution_shown hknown₂ hfaithful₂ p b₂ w₂
  rw [hrun] at h₁
  cases hmeaning : p.meaning b₁ with
  | exhausted =>
    rw [hmeaning] at h₁
    cases h₁
  | ended x l =>
    rw [hmeaning] at h₁
    have hmono := p.meaning_mono hb
    rw [hmeaning] at hmono
    rw [Behaviour.eq_of_ended_le hmono] at h₂
    obtain ⟨u₁, ho₁, -, -, hl₁⟩ := h₁
    obtain ⟨u₂, ho₂, -, -, hl₂⟩ := h₂
    cases ho₁
    exact ⟨_, u₂, ho₂, x, l, rfl, rfl, hl₁, hl₂⟩

/-- A block that is left by its escape, through a cleanup that logs. -/
def leaving : Control 0 0 :=
  .block (.cleanup (.bind (.pure ⟨.int 1, rfl⟩) fun d => .escape 0 d) (.record ⟨.int 2, rfl⟩))

/-- What `leaving` does on the first member of the grid it does on the last one. -/
theorem execution_agrees_on_leaving :
    ∃ (ds : List Definition) (c' : Catalog) (d₁ d₂ : Definition) (w₁ w₂ : World),
      grid .empty = (.ok ds, c') ∧ ds.head? = some d₁ ∧ ds.getLast? = some d₂ ∧
      (leaving.execution d₁.id).run c' 8 .empty =
        .finished (.ok (d₁.encoding.encode (.value ⟨.int 1, rfl⟩))) w₁ ∧
      (leaving.execution d₂.id).run c' 9 .empty =
        .finished (.ok (d₂.encoding.encode (.value ⟨.int 1, rfl⟩))) w₂ ∧
      w₁.log = #[.int 2] ∧ w₂.log = #[.int 2] := by
  obtain ⟨ds, c', hgrid, -, hlength, hall⟩ := yields_grid (c := .empty)
  have hne : ds ≠ [] := fun h => by simp [h] at hlength
  obtain ⟨hknown, himplements⟩ := hall _ (List.head_mem hne)
  obtain ⟨enc, hfaithful⟩ := himplements c' hknown
  have hmeaning : leaving.meaning 8 = .ended (.ok (.value ⟨.int 1, rfl⟩)) [.int 2] := rfl
  have hshown := Control.execution_shown hknown hfaithful leaving 8 .empty
  rw [hmeaning] at hshown
  obtain ⟨w₁, hrun, -, -, hlog⟩ := hshown
  obtain ⟨r₂, w₂, hrun₂, x, l, hx₁, hx₂, hl₁, hl₂⟩ :=
    execution_agrees hgrid (List.head_mem hne) (List.getLast_mem hne) leaving
      (show 8 ≤ 9 by decide) .empty .empty hrun
  obtain ⟨d, rfl⟩ : ∃ d, x = .ok d := by
    rcases x with e | d
    · cases hx₁
    · exact ⟨d, rfl⟩
  obtain rfl := Encoding.encode_injective _ (Except.ok.inj hx₁)
  refine ⟨ds, c', _, _, w₁, w₂, hgrid, List.head?_eq_some_head hne,
    List.getLast?_eq_some_getLast hne, hrun, ?_, hlog, ?_⟩
  · rw [hrun₂, hx₂]
    rfl
  · rw [hl₂, ← hl₁, hlog]
    rfl

end Effects

end EffectLayers
