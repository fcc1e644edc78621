import EffectLayers.Proofs.Layer.SequenceLaws
import EffectLayers.Proofs.Program.Cursors

/-!
# Walking over a sequence

A derived `seq` that walks over the elements of a sequence binds them one after another, whether
they are at hand or handed out by an iterator. However often `bind` runs a continuation, each run
goes on from its own cursor, and the iterator is asked once for each position.

## Main definitions

* `Sequence.Gives`: a sequence whose items are those of a list.
* `Setting.Shows`, `Setting.visiting`: worlds with a sequence, which programs may ask for items.
* `Table.chain`: effect values bound one after another.
* `WalkLaws`: what a walk needs of `pure` and `bind`.

## Main statements

* `WalkLaws.computes_seqFrom`: the walk from any cursor.
* `Seed.seq_in_sequence`: a derived `seq` over a sequence is sequencing.
-/

namespace EffectLayers

/-! ## Sequences of known items -/

/-- The items of an iterator that answers with items only. -/
theorem Iterator.item?_ofAnswers (ms : List Value) (k : Nat) :
    (ofAnswers (ms.map .item)).item? k = ms[k]? := by
  have hanswer (j : Nat) : (ofAnswers (ms.map .item)).answer j = ms[j]? := by
    change ((ms.map Supply.item)[j]?).bind Supply.item? = ms[j]?
    rw [List.getElem?_map]
    cases ms[j]? <;> rfl
  unfold item?
  split
  case isTrue => exact hanswer k
  case isFalse hlasts =>
    refine (List.getElem?_eq_none (Nat.le_of_not_lt fun hk => hlasts fun j hj => ?_)).symm
    rw [hanswer, List.getElem?_eq_getElem (Nat.lt_trans hj hk)]
    rfl

namespace Sequence

/-- The sequence of the items of a list. -/
def ofList (ms : List Value) : Sequence := { items := ms.toArray, source := none }

/-- Whatever was taken so far, the items are found at their positions. -/
def Gives (q : Sequence) (ms : List Value) : Prop :=
  ∀ n k, ((q.advanceBy n).fetch k).1 = ms[k]?

theorem gives_ofList (ms : List Value) : (ofList ms).Gives ms := by
  intro n k
  have hsource : (ofList ms).source = none := rfl
  rw [advanceBy_of_source_eq_none hsource]
  change (advanceBy _ (ofList ms)).items[k]? = ms[k]?
  rw [advanceBy_of_source_eq_none hsource]
  exact List.getElem?_toArray

theorem gives_ofIterator {it : Iterator} {ms : List Value} (h : ∀ k, it.item? k = ms[k]?) :
    (ofIterator it).Gives ms :=
  fun n k => (((took_ofIterator it).advanceBy n).fetch k).1.trans (h k)

end Sequence

namespace Setting

/-- The sequence is there in every world that is admitted, asked for items or not, and programs may
ask for more. -/
structure Shows (S : Setting) (s : SequenceId) (q : Sequence) : Prop where
  found : ∀ w, S.admits w → ∃ n, w.sequences[s]? = some (q.advanceBy n)
  ask : ∀ w k, S.admits w → S.may w ((Query.item s k).answer S.catalog w).2

/-- The worlds with the sequence; programs may do whatever they like. -/
def visiting (c : Catalog) (s : SequenceId) (q : Sequence) : Setting where
  catalog := c
  admits w := ∃ n, w.sequences[s]? = some (q.advanceBy n)
  may w w' := ∀ p, w.sequences[s]? = some p → ∃ n, w'.sequences[s]? = some (p.advanceBy n)
  quiet h _ p hp := ⟨0, h.sequences s p hp⟩
  trans h h' p hp := by
    obtain ⟨m, hm⟩ := h p hp
    obtain ⟨n, hn⟩ := h' _ hm
    exact ⟨m + n, p.advanceBy_advanceBy m n ▸ hn⟩
  within h := h
  entering _ h := h
  keeps h hw := by
    obtain ⟨m, hm⟩ := hw
    obtain ⟨n, hn⟩ := h _ hm
    exact ⟨m + n, q.advanceBy_advanceBy m n ▸ hn⟩

theorem shows_visiting (c : Catalog) (s : SequenceId) (q : Sequence) :
    (visiting c s q).Shows s q :=
  ⟨fun _ hw => hw, fun _ k _ _ hp => Query.sequences_answer hp (.item s k)⟩

end Setting

/-! ## One step -/

section

variable {S : Setting} {s : SequenceId} {q : Sequence} {ms : List Value} {state : Value} {k : Nat}

theorem Value.answers_ofItem (hS : S.Shows s q) (hq : q.Gives ms) (k : Nat) :
    (ofItem s k).AnswersIn S 0 fun v => v.IsAt s k ms[k]? := by
  intro b w _ hw
  obtain ⟨n, hn⟩ := hS.found w hw
  obtain ⟨v, w', hrun, hv, hquiet, hframe⟩ := run_ofItem_of_found hn k S.catalog b
  rw [hq n k] at hv
  exact ⟨v, w', hrun, S.trans (hS.ask w k hw) (S.quiet hquiet hframe), hv⟩

namespace Source

variable (cursor : Value)

/-- At an element, the walk yields it and goes on from the next position. -/
theorem answers_resume (hS : S.Shows s q) (hq : q.Gives ms) {m : Value} (hm : ms[k]? = some m)
    (hstate : state.IsAt s k ms[k]?) (input : Value) :
    ((ofCursor cursor).resume state input).AnswersIn S 0 fun r =>
      ∃ next, r = some (m, next) ∧ next.IsAt s (k + 1) ms[k + 1]? := by
  rw [hm] at hstate
  obtain ⟨i, rfl⟩ := hstate
  exact ((Value.answers_ofItem hS hq (k + 1)).map fun v hv => ⟨v, rfl, hv⟩).inside _

/-- Past the end, the walk yields nothing. -/
theorem computes_resume (hm : ms[k]? = none) (hstate : state.IsAt s k ms[k]?) (input : Value) :
    ((ofCursor cursor).resume state input).ComputesIn S 0 (.ok none) := by
  rw [hm] at hstate
  subst hstate
  exact (Prog.ComputesIn.done _).holding _

end Source

end

/-! ## Chains -/

/-- Effect values bound one after another, each without the result of the one before. -/
def Table.chain (t : Table) : List Value → Prog Value
  | [] => t .pure .unit
  | [m] => Pure.pure m
  | m :: m' :: rest => t .bind m ⟨fun _ => t.chain (m' :: rest), { values := m' :: rest }⟩

/-- What is left of a chain after a result: the result itself, at the end. -/
def Table.chainAfter (t : Table) (v : Value) : List Value → Prog Value
  | [] => t .pure v
  | m :: rest => t.chain (m :: rest)

theorem Table.chainAfter_unit (t : Table) (ms : List Value) :
    t.chainAfter .unit ms = t.chain ms := by
  cases ms <;> rfl

/-- What a walk needs of `pure` and `bind`. What `bind` computes is determined by the effect value
and by what its continuation computes for each value. So is the number of calls that it needs, given
how many the continuation does. To continue with `pure` is to do nothing more. -/
structure WalkLaws (S : Setting) (effect : Value → Prop) (t : Table) : Prop where
  pure_computes : ∃ n, ∃ R : Value → Except Fault Value, (∀ v u, R v = .ok u → effect u) ∧
    ∀ v, (t .pure v).ComputesIn S n (R v)
  bind_computes : ∀ {a n} {R : Value → Except Fault Value}, effect a →
    (∀ v u, R v = .ok u → effect u) → ∃ m r, (∀ u, r = .ok u → effect u) ∧
      ∀ f : Callback, (∀ v, (f.code v).ComputesIn S n (R v)) → (t .bind a f).ComputesIn S m r
  right : ∀ {a} holds, effect a → (t .bind a ⟨t .pure, holds⟩).Computes S (.ok a)

namespace WalkLaws

variable {S : Setting} {effect : Value → Prop} {t : Table} (h : WalkLaws S effect t)

include h

/-- A chain computes what its first effect value does with any continuation that computes the rest
of it. -/
theorem chain_cons {m : Value} {rest : List Value} (hm : effect m) {n : Nat}
    {R : Value → Except Fault Value} (hR : ∀ v u, R v = .ok u → effect u)
    (hrest : ∀ v, (t.chainAfter v rest).ComputesIn S n (R v)) :
    ∃ n' r, (∀ u, r = .ok u → effect u) ∧ (t.chain (m :: rest)).ComputesIn S n' r ∧
      ∀ f : Callback, (∀ v, (f.code v).ComputesIn S n (R v)) →
        (t .bind m f).ComputesIn S n' r := by
  obtain ⟨n', r, hr, hbind⟩ := h.bind_computes hm hR
  cases rest with
  | cons m' rest => exact ⟨n', r, hr, hbind ⟨fun _ => t.chain (m' :: rest), _⟩ hrest, hbind⟩
  | nil =>
    have hlast : (t .bind m ⟨t .pure, { }⟩).Computes S r := ⟨n', hbind _ hrest⟩
    obtain ⟨n₀, hchain⟩ : (Pure.pure m : Prog Value).Computes S r := by
      rcases (h.right { } hm).unique hlast with rfl | hany
      · exact .pure m
      · exact hany _ r
    exact ⟨max n₀ n', r, hr, Prog.ComputesIn.mono hchain (Nat.le_max_left ..),
      fun f hf => (hbind f hf).mono (Nat.le_max_right ..)⟩

variable {s : SequenceId} {q : Sequence} {ms : List Value} (cursor : Value)

/-- The walk from a position, for enough rounds and from whichever cursor stands there, computes
what the chain of the remaining items does. -/
theorem computes_seqFrom (hS : S.Shows s q) (hq : q.Gives ms) {rest : List Value} {k : Nat}
    (hrest : ms.drop k = rest) (hms : ∀ m ∈ rest, effect m) :
    ∃ n, ∃ R : Value → Except Fault Value, (∀ v u, R v = .ok u → effect u) ∧
      (∀ v, (t.chainAfter v rest).ComputesIn S n (R v)) ∧
      ∀ rounds state input, rest.length < rounds → Value.IsAt s k state ms[k]? →
        (Seed.seqFrom (t .bind) (t .pure) (.ofCursor cursor) rounds state input).ComputesIn S n
          (R input) := by
  induction rest generalizing k with
  | nil =>
    obtain ⟨n, R, hR, hpure⟩ := h.pure_computes
    have hend : ms[k]? = none := List.getElem?_eq_none (List.drop_eq_nil_iff.mp hrest)
    refine ⟨n, R, hR, hpure, fun rounds state input hrounds hstate => ?_⟩
    obtain ⟨rounds, rfl⟩ := Nat.exists_eq_add_one.mpr hrounds
    have hresume := ((Source.computes_resume (S := S) cursor hend hstate input).holding
      { values := [input] }).mono (Nat.zero_le n)
    exact (hresume.bind (hpure input)).holding _
  | cons m rest ih =>
    have hm : ms[k]? = some m := by
      rw [← List.head?_drop, hrest]
      rfl
    have hnext : ms.drop (k + 1) = rest := by
      rw [← List.tail_drop, hrest]
      rfl
    obtain ⟨n, R, hR, hafter, hwalk⟩ := ih hnext fun u hu => hms u (List.mem_cons_of_mem m hu)
    obtain ⟨n', r, hr, hchain, hbind⟩ := h.chain_cons (hms m List.mem_cons_self) hR hafter
    refine ⟨n', fun _ => r, fun _ => hr, fun _ => hchain,
      fun rounds state input hrounds hstate => ?_⟩
    obtain ⟨rounds, rfl⟩ := Nat.exists_eq_add_one.mpr (Nat.zero_lt_of_lt hrounds)
    have hresume := ((Source.answers_resume cursor hS hq hm hstate input).inside
      (.holding { values := [input] })).mono (Nat.zero_le n')
    refine (hresume.bind fun x hx => ?_).holding _
    obtain ⟨next, rfl, hat⟩ := hx
    -- Whichever cursor is next, the continuation computes the rest of the chain.
    have hrounds' : rest.length < rounds := Nat.lt_of_succ_lt_succ hrounds
    exact (hbind _ fun v => hwalk rounds next v hrounds' hat).holding _

end WalkLaws

/-! ## A derived `seq` -/

/-- With a cursor on the sequence, the definition's `seq` of the elements from there on computes
what the chain of them does, wherever the sequence is shown and effect values are bound lawfully. -/
def Definition.SequencesOver (d : Definition) (s : SequenceId) (q : Sequence) (cursor : Value)
    (ms : List Value) : Prop :=
  ∀ (S : Setting) (effect : Value → Prop), S.Shows s q → WalkLaws S effect d.table →
    (∀ m ∈ ms, effect m) → (d.table .seq (.ofCursor cursor)).Agree S effect (d.table.chain ms)

namespace Seed

variable {seed : Seed} {d : Definition} {i : DefId}

theorem seq_of_definition? (hd : seed.definition? i = some d) (hseq : seed.supplies .seq = false)
    (source : Source) :
    d.table .seq source = Prog.holding source.start.holds (.bounded fun n => do
      seqFrom (d.table .bind) (d.table .pure) source n (← source.start.run) .unit) := by
  obtain ⟨lift, -, rfl⟩ := Option.map_eq_some_iff.mp hd
  simp only [table, seq, ops_eq_none hseq, Option.getD_none]

theorem sequencesOver_of_definition? (hd : seed.definition? i = some d)
    (hseq : seed.supplies .seq = false) {s : SequenceId} {q : Sequence} {ms : List Value}
    {cursor : Value} (hq : q.Gives ms) (hcursor : cursor.IsAt s 0 ms[0]?) :
    d.SequencesOver s q cursor ms := by
  intro S effect hS hlaws hms
  obtain ⟨n, R, hR, hchain, hwalk⟩ :=
    hlaws.computes_seqFrom cursor hS hq ms.drop_zero hms
  refine ⟨R .unit, hR .unit, ?_, n, d.table.chainAfter_unit ms ▸ hchain .unit⟩
  rw [seq_of_definition? hd hseq]
  refine ⟨max n (ms.length + 1), ?_⟩
  refine Prog.ComputesIn.holding _ (.bounded fun rounds hrounds => ?_)
  have hstart : ((Source.ofCursor cursor).start.run).ComputesIn S 0 (.ok cursor) :=
    (Prog.ComputesIn.done _).holding _
  have hlast := hwalk rounds cursor .unit (show ms.length < rounds by omega) hcursor
  exact (hstart.mono (Nat.zero_le _)).bind (hlast.mono (Nat.le_max_left ..))

end Seed

/-- A new sequence is there, and its cursor stands on the first item. -/
theorem Value.run_cursorOf (items : List Value) (source : Option Iterator) {ms : List Value}
    (hq : Sequence.Gives { items := items.toArray, source } ms) (c : Catalog) (b : Nat)
    (w : World) :
    ∃ v w', (Prog.query (.sequence items source) >>= fun s => ofItem s 0).run c b w =
        .finished (.ok v) w' ∧
      v.IsAt w.sequences.size 0 ms[0]? ∧
      (Setting.visiting c w.sequences.size { items := items.toArray, source }).admits w' := by
  let q : Sequence := { items := items.toArray, source }
  let w₁ : World := { w with sequences := w.sequences.push q }
  have hw₁ : (Setting.visiting c w.sequences.size q).admits w₁ := ⟨0, Array.getElem?_push_size⟩
  obtain ⟨v, w', hrun, hmay, hv⟩ :=
    answers_ofItem (Setting.shows_visiting c _ q) hq 0 b w₁ (Nat.zero_le b) hw₁
  exact ⟨v, w', hrun, hv, Setting.keeps _ hmay hw₁⟩

/-- A derived `seq` over a sequence is sequencing. With a cursor on a list of effect values, or on
an iterator that hands them out, `seq` of the elements computes what the chain of them does, from
the world in which the cursor was made and from every other one with the sequence. In the whole run
the iterator is asked for positions in order, and not twice for any of them. -/
theorem Seed.seq_in_sequence {seed : Seed} {d : Definition} {i : DefId}
    (hd : seed.definition? i = some d) (hseq : seed.supplies .seq = false) (ms : List Value)
    (c : Catalog) (b : Nat) (w : World) :
    (∃ cursor w₁, (Value.cursorOfList ms).run c b w = .finished (.ok cursor) w₁ ∧
      (Setting.visiting c w.sequences.size (.ofList ms)).admits w₁ ∧
      d.SequencesOver w.sequences.size (.ofList ms) cursor ms) ∧
    ∀ it : Iterator, (∀ k, it.item? k = ms[k]?) →
      ∃ cursor w₁, (Value.cursorOfSource it).run c b w = .finished (.ok cursor) w₁ ∧
        (Setting.visiting c w.sequences.size (.ofIterator it)).admits w₁ ∧
        d.SequencesOver w.sequences.size (.ofIterator it) cursor ms ∧
        ∀ b' r w', (d.table .seq (.ofCursor cursor)).run c b' w₁ = .finished r w' →
          ∃ n, w'.Took w.sequences.size it n := by
  constructor
  case left =>
    have hgives := Sequence.gives_ofList ms
    obtain ⟨cursor, w₁, hrun, hcursor, hw₁⟩ := Value.run_cursorOf ms none hgives c b w
    exact ⟨cursor, w₁, hrun, hw₁, sequencesOver_of_definition? hd hseq hgives hcursor⟩
  case right =>
    intro it hit
    have hgives := Sequence.gives_ofIterator hit
    obtain ⟨cursor, w₁, hrun, hcursor, hw₁⟩ := Value.run_cursorOf [] (some it) hgives c b w
    refine ⟨cursor, w₁, hrun, hw₁, sequencesOver_of_definition? hd hseq hgives hcursor,
      fun b' r w' hrun' => ?_⟩
    obtain ⟨m, hm⟩ := hw₁
    obtain ⟨n, hn⟩ := Prog.run_advances _ hrun' hm
    exact ⟨_, _, hn, ((Sequence.took_ofIterator it).advanceBy m).advanceBy n⟩

/-! ## Lists of results -/

namespace Effects

variable {S : Setting}

/-- What the results of the callback are is all that the walk over the items depends on. -/
theorem exists_bindEach {n : Nat} {R : Value → Except Fault Value}
    (hR : ∀ v u, R v = .ok u → ∃ us, u = .list us) (vs found : List Value) :
    ∃ r, ∀ f : Callback, (∀ v, (f.code v).ComputesIn S n (R v)) →
      (bindEach f found vs).ComputesIn S n r := by
  induction vs generalizing found with
  | nil => exact ⟨.ok found, fun f _ => (Prog.ComputesIn.done _).mono (Nat.zero_le n)⟩
  | cons v vs ih =>
    have hcall (f : Callback) (hf : ∀ v, (f.code v).ComputesIn S n (R v)) :
        (Prog.keeping found (Prog.keeping vs (f.call v))).ComputesIn S n (R v) :=
      (((hf v).holding f.holds).holding _).holding _
    cases hv : R v with
    | error e =>
      refine ⟨.error e, fun f hf => ?_⟩
      have hcall := hcall f hf
      rw [hv] at hcall
      exact hcall.fault
    | ok u =>
      obtain ⟨us, rfl⟩ := hR v u hv
      obtain ⟨r, hrest⟩ := ih (us.reverse ++ found)
      refine ⟨r, fun f hf => ?_⟩
      have hcall := hcall f hf
      rw [hv] at hcall
      exact hcall.bind (hrest f hf)

theorem walkLaws_results : WalkLaws S (fun a => ∃ vs, a = .list vs)
    (results.table fun v => pure (.list [v])) where
  pure_computes := by
    refine ⟨0, fun v => .ok (.list [v]), fun v u hu => ?_, fun v => .done _⟩
    cases hu
    exact ⟨[v], rfl⟩
  bind_computes {a n R} ha hR := by
    obtain ⟨vs, rfl⟩ := ha
    obtain ⟨r, heach⟩ := exists_bindEach (S := S) (n := n) hR vs []
    refine ⟨n, r.map fun found => .list found.reverse, fun u hu => ?_, fun f hf => ?_⟩
    · cases r with
      | error e => cases hu
      | ok found =>
        cases hu
        exact ⟨_, rfl⟩
    · have hbind := heach f hf
      change (bindEach f [] vs >>= fun found => pure (Value.list found.reverse)).ComputesIn S n _
      cases r with
      | error e => exact hbind.fault
      | ok found => exact hbind.bind ((Prog.ComputesIn.done _).mono (Nat.zero_le n))
  right {a} holds ha := by
    obtain ⟨vs, rfl⟩ := ha
    have hbind : (results.bind (.list vs) ⟨fun v => pure (.list [v]), holds⟩).Computes S
        (.ok (.list (vs.flatMap fun v => [v]))) := computes_bind_results fun v _ => .pure _
    rwa [List.flatMap_singleton'] at hbind

/-- Two results, then one, then two again, handed out by an iterator: each of the first two goes on
to the end from a cursor of its own, and every item is handed out once. -/
theorem seq_in_sequence_results :
    let ms : List Value := [.list [.int 1, .int 2], .list [.int 3], .list [.int 4, .int 5]]
    let it := Iterator.ofAnswers (ms.map .item)
    ∃ d cursor w₁, results.definition? 0 = some d ∧
      (Value.cursorOfSource it).run .empty 0 .empty = .finished (.ok cursor) w₁ ∧
      ∃ N, ∀ b ≥ N, ∃ w' n, w'.Took 0 it n ∧
        (d.table .seq (.ofCursor cursor)).run .empty b w₁ =
          .finished (.ok (.list [.int 4, .int 5, .int 4, .int 5])) w' := by
  intro ms it
  obtain ⟨d, hd, htable⟩ : ∃ d, results.definition? 0 = some d ∧
      d.table = results.table fun v => pure (.list [v]) := ⟨_, rfl, rfl⟩
  obtain ⟨cursor, w₁, hrun, hw₁, hsequences, htook⟩ :=
    (Seed.seq_in_sequence hd rfl ms .empty 0 .empty).2 it (Iterator.item?_ofAnswers ms)
  let S := Setting.visiting .empty 0 (.ofIterator it)
  have hms : ∀ m ∈ ms, ∃ vs, m = Value.list vs := by simp [ms]
  obtain ⟨r, -, hseq, hchain⟩ := hsequences S (fun a => ∃ vs, a = .list vs)
    (Setting.shows_visiting _ _ _) (htable ▸ walkLaws_results) hms
  have hlast (v : Value) : (results.bind (.list [.int 3])
      ⟨fun _ => pure (.list [.int 4, .int 5]), { values := [.list [.int 4, .int 5]] }⟩).Computes S
        (.ok (.list [.int 4, .int 5])) :=
    computes_bind_results (F := fun _ => [.int 4, .int 5]) fun _ _ => .pure _
  have hall : (d.table.chain ms).Computes S (.ok (.list [.int 4, .int 5, .int 4, .int 5])) := by
    rw [htable]
    exact computes_bind_results (F := fun _ => [.int 4, .int 5]) fun v _ => hlast v
  obtain ⟨N, hseq⟩ : (d.table .seq (.ofCursor cursor)).Computes S
      (.ok (.list [.int 4, .int 5, .int 4, .int 5])) := by
    rcases hall.unique hchain with rfl | hany
    · exact hseq
    · exact hany _ _
  refine ⟨d, cursor, w₁, hd, hrun, N, fun b hb => ?_⟩
  obtain ⟨w', hrun', -⟩ := hseq b w₁ hb hw₁
  obtain ⟨n, hn⟩ := htook b _ w' hrun'
  exact ⟨w', n, hn, hrun'⟩

end Effects

end EffectLayers
