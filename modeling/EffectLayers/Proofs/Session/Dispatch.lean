import EffectLayers.Proofs.Program.Equations
import EffectLayers.Proofs.Session.Homes

/-!
# Which definition a carried value uses

The methods of a carried value use the definition that adopted its brand last, if something holds
it. The installed definition is used only by values of a brand that was never adopted.

## Main definitions

* `Latest`: the last adoption of a brand.
* `Dispatches`: which definition a carried value uses, by the history of adoptions.
* `Method.request?`: what a method asks of the definition.

## Main statements

* `Session.dispatch_latest`: after any steps of a session, in any world.
-/

namespace EffectLayers

/-- The definition adopted the brand, and no other one did so later. -/
def Latest (history : List Adoption) (b : BrandId) (d : DefId) : Prop :=
  ∃ before after, history = before ++ (b, d) :: after ∧ ∀ a ∈ after, a.1 ≠ b

/-- The brand was never adopted. -/
def Never (history : List Adoption) (b : BrandId) : Prop := ∀ a ∈ history, a.1 ≠ b

section

variable {history : List Adoption} {b : BrandId} {d : DefId}

theorem lookup_reverse_eq_some_iff : history.reverse.lookup b = some d ↔ Latest history b d := by
  rw [List.lookup_eq_some_iff]
  constructor
  · rintro ⟨after, before, heq, hafter⟩
    refine ⟨before.reverse, after.reverse, ?_, fun a ha => ?_⟩
    · rw [← List.reverse_reverse history, heq]
      simp
    · exact (bne_iff_ne.mp (hafter a (List.mem_reverse.mp ha))).symm
  · rintro ⟨before, after, rfl, hafter⟩
    refine ⟨after.reverse, before.reverse, by simp, fun a ha => ?_⟩
    exact bne_iff_ne.mpr (hafter a (List.mem_reverse.mp ha)).symm

theorem lookup_reverse_eq_none_iff : history.reverse.lookup b = none ↔ Never history b := by
  simp only [List.lookup_eq_none_iff, List.mem_reverse, bne_iff_ne]
  exact forall₂_congr fun _ _ => ne_comm

theorem Latest.unique {d' : DefId} (h : Latest history b d) (h' : Latest history b d') :
    d = d' := by
  rw [← lookup_reverse_eq_some_iff] at h h'
  exact Option.some.inj (h.symm.trans h')

theorem Latest.not_never (h : Latest history b d) : ¬ Never history b := by
  obtain ⟨before, after, rfl, -⟩ := h
  exact fun hnever => hnever (b, d) (by simp) rfl

theorem latest_or_never (history : List Adoption) (b : BrandId) :
    (∃ d, Latest history b d) ∨ Never history b := by
  cases h : history.reverse.lookup b with
  | some d => exact .inl ⟨d, lookup_reverse_eq_some_iff.mp h⟩
  | none => exact .inr (lookup_reverse_eq_none_iff.mp h)

/-- A brand that was adopted once is one that was adopted, whatever else is. -/
theorem Latest.exists_append (h : Latest history b d) (others : List Adoption) :
    ∃ d', Latest (history ++ others) b d' := by
  refine (latest_or_never _ b).resolve_right fun hnever => h.not_never fun a ha => ?_
  exact hnever a (List.mem_append_left others ha)

end

/-- The definition that a carried value uses, or why there is none. -/
inductive Dispatches (history : List Adoption) (c : Catalog) (w : World) (brand : Brand) :
    Except Fault DefId → Prop
  | home {d : DefId} (h : Latest history brand.id d) (held : w.Held c d) :
      Dispatches history c w brand (.ok d)
  | detached {d : DefId} (h : Latest history brand.id d) (held : ¬ w.Held c d) :
      Dispatches history c w brand (.error (.detached brand.name))
  | ambient {d : DefId} (h : Never history brand.id) (hd : w.ambient = some d) :
      Dispatches history c w brand (.ok d)
  | noAmbient (h : Never history brand.id) (hd : w.ambient = none) :
      Dispatches history c w brand (.error .noAmbient)

/-- What a method asks of the definition that it uses. -/
def Method.request? (self : Value) : Method → List Value → Option (DefId → Prog Value)
  | .alt, [.list others] => some fun d => DefId.invoke d .alt [.list (self :: others)]
  | .alt, _ => none
  | .context, [] => some fun d => do
    let (name, _) ← Prog.ofOption (← Prog.query (.describe d))
    pure (.str name)
  | m, args => m.operation?.map fun op d => DefId.invoke d op (self :: args)

theorem Value.method_eq {self : Value} {m : Method} {args : List Value} {k : DefId → Prog Value}
    (h : m.request? self args = some k) : self.method m args = self.dispatch >>= k := by
  unfold Method.request? at h
  split at h
  · cases h
    rfl
  · cases h
  · cases h
    rfl
  case h_4 halt _ hcontext =>
    obtain ⟨op, hop, rfl⟩ := Option.map_eq_some_iff.mp h
    unfold method
    split
    · exact absurd rfl halt
    · exact absurd rfl (hcontext rfl)
    · rw [hop]
      rfl

namespace Dispatches

variable {history : List Adoption} {c : Catalog} {w : World} {brand : Brand}
  {r r' : Except Fault DefId}

/-- There is one definition to use, or one reason why there is none. -/
theorem unique (h : Dispatches history c w brand r) (h' : Dispatches history c w brand r') :
    r = r' := by
  cases h with
  | home h held =>
    cases h' with
    | home h' _ => rw [h.unique h']
    | detached h' held' => exact absurd (h.unique h' ▸ held) held'
    | ambient h' | noAmbient h' => exact absurd h' h.not_never
  | detached h held =>
    cases h' with
    | home h' held' => exact absurd (h'.unique h ▸ held') held
    | detached => rfl
    | ambient h' | noAmbient h' => exact absurd h' h.not_never
  | ambient h hd =>
    cases h' with
    | home h' | detached h' => exact absurd h h'.not_never
    | ambient _ hd' => rw [Option.some.inj (hd.symm.trans hd')]
    | noAmbient _ hd' => cases hd.symm.trans hd'
  | noAmbient h hd =>
    cases h' with
    | home h' | detached h' => exact absurd h h'.not_never
    | ambient _ hd' => cases hd.symm.trans hd'
    | noAmbient => rfl

/-- Where the homes of brands are the history, a carried value uses what the history says. -/
theorem exists_run (hhomes : c.homes = history.reverse) (w : World) (brand : Brand) (v : Value)
    (n : Nat) : ∃ r, Dispatches history c w brand r ∧
      (Value.carrier brand v).dispatch.run c n w = .finished r w := by
  have hhome : Query.answer c w (.home brand.id) = (history.reverse.lookup brand.id, w) := by
    rw [Query.answer, Catalog.home, hhomes]
  have hcurrent : Query.answer c w .current = (w.ambient, w) := rfl
  rw [Value.dispatch, Prog.run_query_bind, hhome]
  rcases latest_or_never history brand.id with ⟨d, h⟩ | h
  · rw [lookup_reverse_eq_some_iff.mpr h]
    dsimp only
    rw [Prog.run_query_bind]
    rcases halive : w.alive c d with _ | _
    · have hanswer : Query.answer c w (.alive d) = (false, w) := by rw [Query.answer, halive]
      rw [hanswer]
      refine ⟨_, .detached h fun held => ?_, rfl⟩
      rw [World.alive_iff_held.mpr held] at halive
      cases halive
    · have hanswer : Query.answer c w (.alive d) = (true, w) := by rw [Query.answer, halive]
      rw [hanswer]
      exact ⟨_, .home h (World.alive_iff_held.mp halive), rfl⟩
  · rw [lookup_reverse_eq_none_iff.mpr h]
    dsimp only [Ambient.definition]
    rw [Prog.run_query_bind, hcurrent]
    cases hd : w.ambient with
    | some d => exact ⟨_, .ambient h hd, rfl⟩
    | none => exact ⟨_, .noAmbient h hd, rfl⟩

end Dispatches

namespace Session

/-- After any steps, every value of a brand, by any clone of it and whenever it was packed, uses the
definition that adopted the brand last, if something holds it. It uses the installed definition only
if the brand was never adopted; a brand that was adopted once stays so. -/
theorem dispatch_latest {ts : List Step} {s : Session} (h : after ts .empty = some s) :
    (∀ (w : World) (brand : Brand) (v : Value) (n : Nat), ∃ r,
      (∀ r', Dispatches (history ts .empty) s.catalog w brand r' ↔ r' = r) ∧
      (Value.carrier brand v).dispatch.run s.catalog n w = .finished r w ∧
      ∀ (m : Method) (args : List Value) (k : DefId → Prog Value),
        m.request? (.carrier brand v) args = some k →
        ((Value.carrier brand v).method m args).run s.catalog n w =
          (Outcome.finished r w).bind fun d w => (k d).run s.catalog n w) ∧
    ∀ us b d, Latest (history ts .empty) b d → ∃ d', Latest (history (ts ++ us) .empty) b d' := by
  constructor
  · intro w brand v n
    have hhomes : s.catalog.homes = (history ts .empty).reverse :=
      (homes_after h).trans (List.append_nil _)
    obtain ⟨r, hr, hrun⟩ := Dispatches.exists_run hhomes w brand v n
    refine ⟨r, fun r' => ⟨fun hr' => hr'.unique hr, fun heq => heq ▸ hr⟩, hrun, ?_⟩
    intro m args k hk
    rw [Value.method_eq hk, Prog.run_bind, hrun]
  · intro us b d hlatest
    rw [history_append h]
    exact hlatest.exists_append _

/-- A brand is adopted by the definition that is built with its carrier, and then by another one,
whose name is dropped. -/
def readopting : List Step :=
  [.define "d" (.options .identity ⟨false, some "m", false, .off, .home⟩),
    .define "e" (.layers .identity []), .brandOf "b" "d", .adopt "b" "e", .drop "e"]

/-- Where the latest home of a brand is gone, its values find it so, although the former one has a
name and is installed. -/
theorem dispatch_latest_readopting :
    ∃ s, after readopting .empty = some s ∧
      history readopting .empty = [(firstNumber, 1), (firstNumber, 2)] ∧
      s.world.names = [("d", 1)] ∧
      ∀ v n, (Value.carrier ⟨firstNumber, "m"⟩ v).dispatch.run s.catalog n
          { s.world with ambient := some 1 } =
        .finished (.error (.detached "m")) { s.world with ambient := some 1 } := by
  have hrun : (after readopting .empty).map (fun s => (s.world.names,
      World.alive s.catalog { s.world with ambient := some 1 } 2)) =
        some ([("d", 1)], false) := by decide +kernel
  have hhistory : history readopting .empty = [(firstNumber, 1), (firstNumber, 2)] := by
    decide +kernel
  obtain ⟨s, hs, hworld⟩ := Option.map_eq_some_iff.mp hrun
  obtain ⟨hnames, halive⟩ := Prod.mk.inj hworld
  refine ⟨s, hs, hhistory, hnames, fun v n => ?_⟩
  obtain ⟨r, hr, hdispatch, -⟩ :=
    (dispatch_latest hs).1 { s.world with ambient := some 1 } ⟨firstNumber, "m"⟩ v n
  have hdetached : Dispatches (history readopting .empty) s.catalog
      { s.world with ambient := some 1 } ⟨firstNumber, "m"⟩ (.error (.detached "m")) := by
    refine .detached (d := 2) ⟨[(firstNumber, 1)], [], hhistory, List.forall_mem_nil _⟩
      fun held => ?_
    rw [World.alive_iff_held.mpr held] at halive
    cases halive
  rw [hdispatch, (hr _).mp hdetached]

/-- A definition is built with a carrier and without a context, and makes an effect value. -/
def carrying : List Step :=
  [.define "d" (.options .identity ⟨false, some "m", false, .off, .home⟩),
    .eval (.request (some "d") (.operation .pure) [.lit (.int 7)]) (some "c")]

/-- The value is continued. The continuation drops the name of the definition, and then asks for
what is installed and for what the value uses. -/
def dropping : Expr :=
  .method .bind (.var "c")
    [.fn "x" (.list [.drop "d", .current, .method .context (.var "c") []])]

/-- What the continuation found: nothing installed, and the name of the definition that is used. -/
def usedName? : Value → Option String
  | .carrier _ (.list [.unit, .unit, .str name]) => some name
  | _ => none

/-- The definitions that have a name, are installed or are to be installed again. -/
def listed (s : Session) : List DefId :=
  s.world.names.map (·.2) ++ s.world.ambient.toList ++ s.world.saved.filterMap id

/-- While its own method runs, a value uses a definition that has no name any more, is not
installed, is not to be installed again, and is beneath none that is. Once the method has returned,
it is gone. -/
theorem dispatch_while_running :
    ∃ s result answer s', after carrying .empty = some s ∧
      history carrying .empty = [(firstNumber, 1)] ∧ s.listed = [1] ∧
      s.evaluate (dropping.eval s.env) = some (.ok result, answer, s') ∧
      usedName? result = some "identity+carrier" ∧ s'.listed = [] ∧
      ∀ v n, (Value.carrier ⟨firstNumber, "m"⟩ v).dispatch.run s'.catalog n s'.world =
        .finished (.error (.detached "m")) s'.world := by
  have hrun : ((after carrying .empty).bind fun s =>
      (s.evaluate (dropping.eval s.env)).map fun r =>
        (r.1.toOption.bind usedName?, s.listed, r.2.2.listed,
          r.2.2.world.alive r.2.2.catalog 1)) =
      some (some "identity+carrier", [1], [], false) := by
    decide +kernel
  have hhistory : history carrying .empty = [(firstNumber, 1)] := by decide +kernel
  obtain ⟨s, hs, hrun⟩ := Option.bind_eq_some_iff.mp hrun
  obtain ⟨⟨r, answer, s'⟩, hevaluate, hworlds⟩ := Option.map_eq_some_iff.mp hrun
  simp only [Prod.mk.injEq] at hworlds
  obtain ⟨hresult, hlisted, hlisted', halive⟩ := hworlds
  cases r with
  | error e => cases hresult
  | ok result =>
    refine ⟨s, result, answer, s', hs, hhistory, hlisted, hevaluate, hresult, hlisted',
      fun v n => ?_⟩
    have hhomes : s'.catalog.homes = (history carrying .empty).reverse := by
      rw [catalog_evaluate hevaluate]
      exact (homes_after hs).trans (List.append_nil _)
    obtain ⟨r, hr, hdispatch⟩ := Dispatches.exists_run hhomes s'.world ⟨firstNumber, "m"⟩ v n
    have hdetached : Dispatches (history carrying .empty) s'.catalog s'.world ⟨firstNumber, "m"⟩
        (.error (.detached "m")) := by
      refine .detached (d := 1) ⟨[], [], hhistory, List.forall_mem_nil _⟩ fun held => ?_
      rw [World.alive_iff_held.mpr held] at halive
      cases halive
    rw [hdispatch, hr.unique hdetached]

end Session

end EffectLayers
