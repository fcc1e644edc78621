import EffectLayers.Proofs.Layer.Kind
import EffectLayers.Proofs.Program.Paired

/-!
# Programs that find no definition gone

That a definition is gone is found in two places: where a method of a carried value looks for its
home, and where a context layer installs its definition around what it wrapped. A run in which the
homes that are looked up are kept, and in which what is used finds none gone that a context layer
wrapped for, does not fail for a definition that is gone.

## Main definitions

* `Keeping`: the definitions that are kept, the names that are not forgotten, and what is left
  alone.
* `Prog.Attached`: a program that does not find a definition gone if the homes that it looks up are
  kept.
* `World.Attached`, `Catalog.Attached`: so it is with the function values and the definitions that
  are not left alone.
* `Event.Kept`: no home is looked up that is not kept, and nothing is used that is left alone.

## Main statements

* `Prog.Kind.attached`: these programs are a kind, whatever is kept.
* `Installer.attached_around`: what a context layer wraps is of the kind if its definition is kept.
* `Prog.Attached.staysAttached`: in a run of such a program, either some event is not as it should
  be, or it does not fail for a definition that is gone.
-/

namespace EffectLayers

variable {α β : Type}

/-- The definitions that are kept, the names that are not forgotten, and the function values and the
definitions that are left alone. -/
structure Keeping where
  kept : DefId → Prop
  named : String → DefId → Prop
  uncalled : FuncId → Prop
  uninvoked : DefId → Prop

/-- Not the fault that a definition is gone. -/
def Reached (r : Except Fault α) : Prop := ∀ e, r = .error e → e.detaches = false

theorem reached_ok (a : α) : Reached (.ok a : Except Fault α) := by
  intro e h
  cases h

theorem reached_error {e : Fault} (he : e.detaches = false) :
    Reached (.error e : Except Fault α) := by
  intro e' h
  cases h
  exact he

/-- The request forgets no name that is to stay. -/
def Query.Keeps (K : Keeping) : Query → Prop
  | forget name => ∀ d, ¬ K.named name d
  | _ => True

/-- The answers where the homes of brands are kept, and what is kept is alive. -/
def Query.Gives (K : Keeping) : (q : Query) → q.Answer → Prop
  | home _, a => ∀ d, a = some d → K.kept d
  | alive d, a => K.kept d → a = true
  | _, _ => True

/-- The program does not fail for a definition that is gone, if the homes that it looks up are kept
and nothing that it uses fails so. -/
def Prog.Attached (K : Keeping) : {α : Type} → Prog α → Prop
  | _, .done r => Reached r
  | _, .halt _ => True
  | _, .bounded next => ∀ n, (next n).Attached K
  | _, .ask q next => q.Keeps K ∧ ∀ a, q.Gives K a → (next a).Attached K
  | _, .function _ code next => (∀ v, (code v).Attached K) ∧ ∀ id, (next id).Attached K
  | _, .call _ _ next => ∀ r, Reached r → (next r).Attached K
  | _, .invoke _ _ _ next => ∀ r, Reached r → (next r).Attached K
  | _, .within _ body next => body.Attached K ∧ ∀ r, Reached r → (next r).Attached K

variable {K : Keeping}

/-! ## Rules -/

namespace Prog.Attached

theorem pure (a : α) : (Pure.pure a : Prog α).Attached K := reached_ok a

theorem throw {e : Fault} (he : e.detaches = false) :
    (MonadExcept.throw e : Prog α).Attached K :=
  reached_error he

theorem bind {p : Prog α} {f : α → Prog β} (hp : p.Attached K) (hf : ∀ a, (f a).Attached K) :
    (p >>= f).Attached K := by
  induction p with
  | done r =>
    cases r with
    | ok a => exact hf a
    | error e => exact throw (hp e rfl)
  | halt => trivial
  | bounded next ih => exact fun n => ih n (hp n) hf
  | ask q next ih => exact ⟨hp.1, fun a ha => ih a (hp.2 a ha) hf⟩
  | function g code next _ ih => exact ⟨hp.1, fun id => ih id (hp.2 id) hf⟩
  | call g arg next ih => exact fun r hr => ih r (hp r hr) hf
  | invoke d request args next ih => exact fun r hr => ih r (hp r hr) hf
  | within s body next _ ih => exact ⟨hp.1, fun r hr => ih r (hp.2 r hr) hf⟩

theorem ofOption (a : Option α) : (Prog.ofOption a).Attached K := by
  cases a with
  | none => trivial
  | some a => exact pure a

theorem inside (s : Scope) {p : Prog α} (hp : p.Attached K) : (Prog.inside s p).Attached K :=
  ⟨hp, fun _ hr => hr⟩

theorem query {q : Query} (hq : q.Keeps K) : (Prog.query q).Attached K :=
  ⟨hq, fun a _ => pure a⟩

theorem request (d : DefId) (r : Request) (args : List Value) :
    (d.request r args).Attached K :=
  fun _ hr => hr

theorem ambient : Ambient.definition.Attached K := by
  refine ⟨trivial, fun d _ => ?_⟩
  cases d with
  | none => exact throw rfl
  | some d => exact pure d

/-- The definition that the methods of a value use is found if the home of its brand is kept. -/
theorem dispatch (v : Value) : v.dispatch.Attached K := by
  cases v with
  | carrier brand inner =>
    refine ⟨trivial, fun home hhome => ?_⟩
    cases home with
    | none => exact ambient
    | some d =>
      refine ⟨trivial, fun alive halive => ?_⟩
      obtain rfl := halive (hhome d rfl)
      exact pure d
  | _ => exact throw rfl

theorem method (m : Method) (v : Value) (args : List Value) : (v.method m args).Attached K := by
  have hinvoke (op : Operation) (args : List Value) :
      Prog.Attached K (do DefId.invoke (← v.dispatch) op args) :=
    (dispatch v).bind fun d => request d (.operation op) args
  unfold Value.method
  split
  case h_1 others =>
    refine bind ?_ fun _ => hinvoke _ _
    cases others <;> first | exact pure _ | exact throw rfl
  case h_2 =>
    refine (dispatch v).bind fun d => bind (query trivial) fun found => ?_
    exact bind (ofOption found) fun _ => pure _
  case h_3 => exact bind (ofOption _) fun op => hinvoke op _

theorem call (f v : Value) : (f.call v).Attached K := by
  cases f with
  | func f => exact fun r hr => hr
  | _ => exact throw rfl

end Prog.Attached

/-- The programs that do not find a definition gone. -/
def Prog.Kind.attached (K : Keeping) : Prog.Kind where
  Of := Prog.Attached K
  pure := Attached.pure
  throw := Attached.throw
  halt _ := trivial
  bounded h := h
  bind := Attached.bind
  holding g := Attached.inside (.holding g)
  freshScope := Attached.query trivial
  adopted := Attached.query trivial
  reify hf := ⟨hf, fun _ => Attached.pure _⟩
  call := Attached.call
  method := Attached.method

/-- What a context layer wraps, if its definition is kept. -/
theorem Installer.attached_around {a : Installer} (ha : K.kept a.target) {p : Prog α}
    (hp : p.Attached K) : (a.around p).Attached K := by
  refine ⟨trivial, fun alive halive => ?_⟩
  obtain rfl := halive ha
  exact hp.inside (.installed a.target)

/-! ## Worlds -/

/-- What is kept is held, and the function values that may be called find no definition gone. -/
structure World.Attached (c : Catalog) (K : Keeping) (w : World) : Prop where
  keeps : w.Keeps c K.named K.kept
  functions : ∀ (i : FuncId) f, w.functions[i]? = some f → ¬ K.uncalled i → f.Of (.attached K)

/-- The definitions that may be used find no definition gone. -/
def Catalog.Attached (c : Catalog) (K : Keeping) : Prop :=
  ∀ i d, ¬ K.uninvoked i → c.get? i = some d → d.table.Of (.attached K)

/-- The same of all definitions but one, which is to be looked at by itself. -/
def Catalog.AttachedBeside (c : Catalog) (K : Keeping) (d : DefId) : Prop :=
  ∀ i e, ¬ K.uninvoked i → i ≠ d → c.get? i = some e → e.table.Of (.attached K)

/-- The home of a brand that is looked up is kept, and nothing is used that is to be left alone. -/
def Event.Kept (c : Catalog) (K : Keeping) : Event → Prop
  | request (.home b) _ => ∀ d, c.home b = some d → K.kept d
  | request _ _ => True
  | call f => ¬ K.uncalled f
  | invoke d => ¬ K.uninvoked d

namespace World.Attached

variable {c : Catalog} {w w₁ : World}

theorem entering (h : w.Attached c K) (s : Scope) : (w.entering s).Attached c K :=
  ⟨h.keeps.entering s, h.functions⟩

theorem leaving (h : w.Attached c K) (h₁ : w₁.Attached c K) (s : Scope) :
    (w₁.leaving s w.toFrame).Attached c K :=
  ⟨h.keeps.leaving h₁.keeps s, h₁.functions⟩

theorem push (h : w.Attached c K) {f : Callback} (hf : f.Of (.attached K)) :
    World.Attached c K { w with functions := w.functions.push f } where
  keeps := h.keeps.congr rfl rfl
  functions i g hg hi := by
    rw [Array.getElem?_push] at hg
    split at hg
    · exact Option.some.inj hg ▸ hf
    · exact h.functions i g hg hi

/-- Where what is come across is kept, the answer is one of those that were expected. -/
theorem answer (h : w.Attached c K) {q : Query} (hq : q.Keeps K)
    (hkept : (Event.request q w).Kept c K) :
    q.Gives K (q.answer c w).1 ∧ (q.answer c w).2.Attached c K := by
  cases q with
  | home => exact ⟨hkept, h⟩
  | alive d => exact ⟨fun hd => h.keeps.alive hd, h⟩
  | forget name => exact ⟨trivial, h.keeps.forget hq, h.functions⟩
  | item s position =>
    simp only [Query.answer]
    cases w.sequences[s]? with
    | none => exact ⟨trivial, h⟩
    | some before => exact ⟨trivial, h.keeps.congr rfl rfl, h.functions⟩
  | _ => exact ⟨trivial, h.keeps.congr rfl rfl, h.functions⟩

end World.Attached

/-! ## Runs -/

namespace Prog

variable {c : Catalog} {b rounds : Nat} {nested : Prog Value → World → Outcome Value}
  {inner : Prog Value → World → List Event}

/-- The code that can be called finds no definition gone, and makes only such code, if all that
happens in it is as it should be. -/
def Reaches (c : Catalog) (K : Keeping) (run : Prog Value → World → Outcome Value)
    (inner : Prog Value → World → List Event) : Prop :=
  ∀ p w r w', p.Attached K → w.Attached c K → (∀ e ∈ inner p w, e.Kept c K) →
    run p w = .finished r w' → Reached r ∧ w'.Attached c K

theorem Attached.runWith (hc : c.Attached K) (hnested : Reaches c K nested inner) {p : Prog α}
    (hp : p.Attached K) {w w' : World} (hw : w.Attached c K) {r : Except Fault α}
    (hevents : ∀ e ∈ p.eventsWith c rounds nested inner w, e.Kept c K)
    (h : p.runWith c rounds nested w = .finished r w') : Reached r ∧ w'.Attached c K := by
  induction p generalizing w w' with
  | done =>
    cases h
    exact ⟨hp, hw⟩
  | halt => cases h
  | bounded next ih => exact ih rounds (hp rounds) hw hevents h
  | ask q next ih =>
    obtain ⟨hq, hnext⟩ := List.forall_mem_cons.mp hevents
    obtain ⟨hgives, hw'⟩ := hw.answer hp.1 hq
    exact ih _ (hp.2 _ hgives) hw' hnext h
  | function g code next _ ih => exact ih _ (hp.2 _) (hw.push (f := ⟨code, g⟩) hp.1) hevents h
  | call f arg next ih =>
    obtain ⟨found, r', w₁, hf, hcode, hrest⟩ := runWith_call_eq_finished h
    rw [eventsWith_call c w rounds nested inner arg next hf, hcode] at hevents
    obtain ⟨hcall, hevents⟩ := List.forall_mem_cons.mp hevents
    obtain ⟨hinner, hnext⟩ := List.forall_mem_append.mp hevents
    obtain ⟨hr', hw₁⟩ := hnested _ _ _ _ (hw.functions f found hf hcall arg)
      (hw.entering (.holding _)) hinner hcode
    exact ih r' (hp r' hr') (hw.leaving hw₁ _) hnext hrest
  | invoke d request args next ih =>
    obtain ⟨definition, r', w₁, hd, hcode, hrest⟩ := runWith_invoke_eq_finished h
    rw [eventsWith_invoke c w rounds nested inner request args next hd, hcode] at hevents
    obtain ⟨hinvoke, hevents⟩ := List.forall_mem_cons.mp hevents
    obtain ⟨hinner, hnext⟩ := List.forall_mem_append.mp hevents
    have hanswer := (hc d definition hinvoke hd).answer request args
    obtain ⟨hr', hw₁⟩ :=
      hnested _ _ _ _ hanswer (hw.entering (.holding _)) hinner hcode
    exact ih r' (hp r' hr') (hw.leaving hw₁ _) hnext hrest
  | within s body next ih ihNext =>
    rw [runWith_within] at h
    obtain ⟨r', w₁, hcode, hrest⟩ := Outcome.onward_eq_finished h
    rw [eventsWith, hcode] at hevents
    obtain ⟨hbody, hnext⟩ := List.forall_mem_append.mp hevents
    obtain ⟨hr', hw₁⟩ := ih hp.1 (hw.entering s) hbody hcode
    exact ihNext r' (hp.2 r' hr') (hw.leaving hw₁ _) hnext hrest

end Prog

end EffectLayers
