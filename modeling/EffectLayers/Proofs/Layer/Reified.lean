import EffectLayers.Proofs.Layer.Brands

/-!
# Where a carrier unpacks what is reified

`run` on a carrier hands the definition beneath a thunk that is unpacked already. `reify` hands it
the thunk as it is and unpacks what comes back. The two ways differ as soon as the `reify` beneath
does more with an answer than hand it on.

## Main definitions

* `Definition.ReifiesUnpacked`: `reify` on a carrier is the one beneath it on unpacked thunks.
* `Definition.ReifiesThrough`: a `reify` that does not notice whether answers are in carriers.
* `OnlyRuns`: an operation that does nothing with its thunk but run it.

## Main statements

* `Definition.reifiesUnpacked_iff`: when it makes no difference where the carrier unpacks.
-/

namespace EffectLayers

/-- Thunks that hold the same and run alike are treated alike. -/
def OnlyRuns (op : Action → Prog Value) : Prop :=
  ∀ f f' : Action, f.holds = f'.holds → f.code.RunsAs f'.code → (op f).RunsAs (op f')

/-- Running a thunk and going on with what it answers. -/
theorem onlyRuns_run_bind (post : Value → Prog Value) : OnlyRuns fun f => f.run >>= post := by
  intro f f' hholds hcode
  simp only [Closure.run, hholds]
  exact (hcode.inside _).bind fun v => .refl _

namespace Packing

variable (w : Packing)

theorem carries_packed (p : Prog Value) : (w.packed p).Carries w.brand := by
  refine .bind fun v c b u x u' hrun => ?_
  cases hrun
  exact ⟨v, rfl⟩

/-- What is in carriers anyway may be unpacked and packed again. -/
theorem packed_unpacked {p : Prog Value} (h : p.Carries w.brand) :
    p.RunsAs (w.packed (w.unpacked p)) := by
  intro c b u
  rw [packed, unpacked, bind_assoc, Prog.run_bind]
  rcases hrun : p.run c b u with halt | ⟨e | v, u'⟩
  · rfl
  · rfl
  · obtain ⟨x, rfl⟩ := h c b u v u' hrun
    have hunpack : w.unpack (.carrier w.brand x) = pure x := w.unpack_pack x
    simp only [Outcome.bind, hunpack]
    rfl

end Packing

namespace Definition

variable {inner d : Definition} {brand : Brand} {c c' : Catalog}

/-- On thunks that answer carriers of the brand, `reify` is that of the definition beneath, which
sees what is inside the carriers. -/
def ReifiesUnpacked (d inner : Definition) (brand : Brand) : Prop :=
  ∀ f : Action, f.code.Carries brand →
    (d.table .reify f).RunsAs (inner.table .reify (f.map (inner.packing brand).unpacked))

/-- It does not matter to `reify` whether its thunk answers a value or a carrier with the value in
it, but for the carrier that its own result is in. -/
def ReifiesThrough (inner : Definition) (brand : Brand) : Prop :=
  let w := inner.packing brand
  ∀ g : Action, (w.unpacked (inner.table .reify (g.map w.packed))).RunsAs (inner.table .reify g)

theorem reify_of_withCarrier (h : inner.withCarrier brand c = (.ok d, c')) (f : Action) :
    d.table .reify f = (inner.packing brand).unpacked (inner.table .reify f) := by
  obtain ⟨i, hd⟩ := Seed.definition?_of_assemble (s := (inner.packing brand).seed inner) h
  exact congrFun (Seed.table_given hd .reify rfl) f

theorem ReifiesUnpacked.reifiesThrough (h : inner.withCarrier brand c = (.ok d, c'))
    (hd : d.ReifiesUnpacked inner brand) : inner.ReifiesThrough brand := by
  intro g
  have hclaim := hd (g.map (inner.packing brand).packed) (Packing.carries_packed _ g.code)
  have hmap : (g.map (inner.packing brand).packed).map (inner.packing brand).unpacked = g := by
    simp only [Closure.map, Packing.unpacked_packed]
  rw [hmap, reify_of_withCarrier h] at hclaim
  exact hclaim

theorem ReifiesThrough.reifiesUnpacked (hinner : OnlyRuns (inner.table .reify))
    (hthrough : inner.ReifiesThrough brand) (h : inner.withCarrier brand c = (.ok d, c')) :
    d.ReifiesUnpacked inner brand := by
  intro f hf
  rw [reify_of_withCarrier h]
  have hpacked : (inner.table .reify f).RunsAs (inner.table .reify
      ((f.map (inner.packing brand).unpacked).map (inner.packing brand).packed)) :=
    hinner _ _ rfl (Packing.packed_unpacked _ hf)
  exact (hpacked.bind fun v => .refl _).trans (hthrough _)

/-- A `reify` that goes on with what its thunk answers does not notice carriers if what it does next
is the same for a value in a carrier as for the value itself. -/
theorem reifiesThrough_iff {post : Value → Prog Value}
    (hpost : ∀ f : Action, inner.table .reify f = f.run >>= post) :
    inner.ReifiesThrough brand ↔
      ∀ v, ((inner.packing brand).unpacked (post (.carrier brand v))).RunsAs (post v) := by
  let w := inner.packing brand
  unfold ReifiesThrough
  simp only [hpost]
  constructor
  case mp =>
    -- A thunk that answers the value at once, and holds nothing.
    intro h v
    have hleft : (w.unpacked ((Closure.run ⟨pure (.carrier brand v), { }⟩) >>= post)).RunsAs
        (w.unpacked (post (.carrier brand v))) :=
      ((Prog.RunsAs.inside_done _ (.ok _)).bind fun u => .refl (post u)).bind fun u => .refl _
    have hright : ((Closure.run ⟨pure v, { }⟩) >>= post).RunsAs (post v) :=
      (Prog.RunsAs.inside_done _ (.ok v)).bind fun u => .refl (post u)
    intro c b u
    exact ((hleft c b u).symm.trans (h ⟨pure v, { }⟩ c b u)).trans (hright c b u)
  case mpr =>
    intro h g
    have hrun : ((g.map w.packed).run).RunsAs (g.run >>= fun v => pure (w.pack v)) :=
      Prog.RunsAs.inside_map _ g.code w.pack
    have hunpacked : ((g.run >>= fun v => pure (w.pack v)) >>= fun u => w.unpacked (post u)).RunsAs
        (g.run >>= post) := by
      rw [bind_assoc]
      exact (Prog.RunsAs.refl g.run).bind fun v => h v
    refine .trans ?_ hunpacked
    unfold Packing.unpacked
    rw [bind_assoc]
    exact hrun.bind fun v => .refl _

/-- A carrier on a `reify` that does nothing with its thunk but run it reifies unpacked thunks
exactly if that `reify` does not notice carriers. If it runs its thunk and goes on with the answer,
this is to say that it goes on alike with a value and with a carrier that the value is in. -/
theorem reifiesUnpacked_iff (h : inner.withCarrier brand c = (.ok d, c')) :
    (OnlyRuns (inner.table .reify) →
      (d.ReifiesUnpacked inner brand ↔ inner.ReifiesThrough brand)) ∧
    ∀ post : Value → Prog Value, (∀ f : Action, inner.table .reify f = f.run >>= post) →
      (d.ReifiesUnpacked inner brand ↔
        ∀ v, ((inner.packing brand).unpacked (post (.carrier brand v))).RunsAs (post v)) := by
  have hiff (hinner : OnlyRuns (inner.table .reify)) :
      d.ReifiesUnpacked inner brand ↔ inner.ReifiesThrough brand :=
    ⟨fun hd => hd.reifiesThrough h, fun hthrough => hthrough.reifiesUnpacked hinner h⟩
  refine ⟨hiff, fun post hpost => ?_⟩
  have hinner : OnlyRuns (inner.table .reify) := funext hpost ▸ onlyRuns_run_bind post
  exact (hiff hinner).trans (reifiesThrough_iff hpost)

end Definition

namespace Effects

/-- Every operation runs at once; `reify` logs once its thunk is done and hands the answer on. -/
def reifyLogging : Seed := identity.set .reify fun f => do
  let v ← f.run
  Prog.query (.log .unit)
  return v

/-- Every operation runs at once; `reify` lists what its thunk answers. -/
def reifyListing : Seed := identity.set .reify fun f => do return .list [← f.run]

/-- Logging makes no difference. -/
theorem reifiesUnpacked_reifyLogging : ∃ inner d c c',
    reifyLogging.complete .empty = (.ok inner, c) ∧ inner.supplies .reify = true ∧
    inner.withCarrier ⟨0, "m"⟩ c = (.ok d, c') ∧ d.ReifiesUnpacked inner ⟨0, "m"⟩ := by
  obtain ⟨inner, d, c, c', hcomplete, hsupplies, hcarrier, hreify⟩ : ∃ inner d c c',
      reifyLogging.complete .empty = (.ok inner, c) ∧ inner.supplies .reify = true ∧
      inner.withCarrier ⟨0, "m"⟩ c = (.ok d, c') ∧
      inner.table .reify = fun f => f.run >>= fun v => do
        Prog.query (.log .unit)
        return v :=
    ⟨_, _, _, _, rfl, rfl, rfl, rfl⟩
  refine ⟨inner, d, c, c', hcomplete, hsupplies, hcarrier,
    ((Definition.reifiesUnpacked_iff hcarrier).2 _ (congrFun hreify)).mpr fun v => ?_⟩
  have hunpack : (inner.packing ⟨0, "m"⟩).unpack (.carrier ⟨0, "m"⟩ v) = pure v :=
    (inner.packing ⟨0, "m"⟩).unpack_pack v
  simp only [Packing.unpacked, bind_assoc, pure_bind, hunpack]
  exact .refl _

/-- With a thunk that answers `1` in a carrier, it is the carrier that is listed; beneath the
carrier layer, with the thunk unpacked, it is `1`. -/
theorem not_reifiesUnpacked_reifyListing : ∃ inner d c c',
    let thunk : Action := ⟨pure (.carrier ⟨0, "m"⟩ (.int 1)), { }⟩
    reifyListing.complete .empty = (.ok inner, c) ∧ inner.supplies .reify = true ∧
    inner.withCarrier ⟨0, "m"⟩ c = (.ok d, c') ∧
    (d.table .reify thunk).run c' 0 .empty =
      .finished (.ok (.list [.carrier ⟨0, "m"⟩ (.int 1)])) .empty ∧
    (inner.table .reify (thunk.map (inner.packing ⟨0, "m"⟩).unpacked)).run c' 0 .empty =
      .finished (.ok (.list [.int 1])) .empty ∧
    ¬ d.ReifiesUnpacked inner ⟨0, "m"⟩ := by
  refine ⟨_, _, _, _, rfl, rfl, rfl, rfl, rfl, fun hd => ?_⟩
  have hanswers : (pure (.carrier ⟨0, "m"⟩ (.int 1)) : Prog Value).Carries ⟨0, "m"⟩ := by
    intro c b w v w' hrun
    cases hrun
    exact ⟨.int 1, rfl⟩
  have hsame := hd ⟨pure (.carrier ⟨0, "m"⟩ (.int 1)), { }⟩ hanswers .empty 0 .empty
  cases hsame

end Effects

end EffectLayers
