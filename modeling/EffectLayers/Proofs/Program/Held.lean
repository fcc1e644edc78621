import EffectLayers.Program.World

/-!
# What holds a definition

A definition is alive exactly while something holds it, or one that is layered on it: a name, what
is installed or to be installed again, what is in use, and the function values within reach.

## Main definitions

* `World.Reaches`: the function values and sequences within reach, as a relation.
* `World.Holder`, `World.Held`: what is held itself, and what is held or beneath such.

## Main statements

* `World.marks_reachable`: the search for what is within reach finds exactly that.
* `World.alive_iff_held`: what is alive is held.
-/

namespace EffectLayers

/-! ## Marks -/

namespace References

/-- The reference is in the set. -/
def Marks (rs : References) : Reference → Prop
  | .function f => rs.functions[f]? = some true
  | .sequence s => rs.sequences[s]? = some true

/-- The set has room for the reference. -/
def Fits (rs : References) : Reference → Prop
  | .function f => f < rs.functions.size
  | .sequence s => s < rs.sequences.size

/-- How many references there is room for that are not in the set. -/
def missing (rs : References) : Nat := rs.functions.count false + rs.sequences.count false

variable {rs : References} {q r : Reference}

theorem contains_iff : rs.contains r = true ↔ (rs.Fits r → rs.Marks r) := by
  have hslot (a : Array Bool) (i : Nat) :
      a.getD i true = true ↔ (i < a.size → a[i]? = some true) := by
    by_cases hi : i < a.size
    · simp [hi]
    · simp [hi]
  cases r with
  | function f => exact hslot rs.functions f
  | sequence s => exact hslot rs.sequences s

theorem Marks.contains (h : rs.Marks r) : rs.contains r = true := contains_iff.mpr fun _ => h

theorem fits_of_not_contains (h : rs.contains r = false) : rs.Fits r ∧ ¬ rs.Marks r := by
  have hnot : ¬ (rs.Fits r → rs.Marks r) := fun himp => by
    rw [contains_iff.mpr himp] at h
    cases h
  exact Classical.not_imp.mp hnot

theorem fits_insert : (rs.insert r).Fits q ↔ rs.Fits q := by
  cases r <;> cases q <;> simp [Fits, insert]

theorem marks_insert : (rs.insert r).Marks q ↔ rs.Marks q ∨ q = r ∧ rs.Fits r := by
  have hset (a : Array Bool) (i j : Nat) :
      (a.setIfInBounds i true)[j]? = some true ↔ a[j]? = some true ∨ j = i ∧ i < a.size := by
    rw [Array.getElem?_setIfInBounds]
    by_cases hji : i = j
    · subst hji
      by_cases hi : i < a.size <;> simp [hi]
    · simp [hji, Ne.symm hji]
  cases r <;> cases q <;> simp [Marks, insert, Fits, hset]

theorem contains_insert (h : rs.contains q = true) : (rs.insert r).contains q = true :=
  contains_iff.mpr fun hfits =>
    marks_insert.mpr (.inl (contains_iff.mp h (fits_insert.mp hfits)))

theorem missing_insert (h : rs.contains r = false) : (rs.insert r).missing + 1 = rs.missing := by
  have hset (a : Array Bool) (i : Nat) (hi : i < a.size) (hmark : ¬ a[i]? = some true) :
      (a.setIfInBounds i true).count false + 1 = a.count false := by
    have hfalse : a[i] = false := by simpa [hi] using hmark
    have hpos : 0 < a.count false := Array.count_pos_iff.mpr (hfalse ▸ Array.getElem_mem hi)
    rw [Array.setIfInBounds_def, dif_pos hi, Array.count_set, hfalse]
    simp
    omega
  obtain ⟨hfits, hmarks⟩ := fits_of_not_contains h
  cases r with
  | function f =>
    have hcount := hset rs.functions f hfits hmarks
    simp only [missing, insert]
    omega
  | sequence s =>
    have hcount := hset rs.sequences s hfits hmarks
    simp only [missing, insert]
    omega

theorem contains_of_missing (h : rs.missing = 0) (r : Reference) : rs.contains r = true := by
  rcases hr : rs.contains r with _ | _
  · have hinsert := missing_insert hr
    omega
  · rfl

end References

namespace Value

theorem mem_referencesAll {vs : List Value} {r : Reference} :
    r ∈ referencesAll vs ↔ ∃ v ∈ vs, r ∈ v.references := by
  induction vs with
  | nil => simp [referencesAll]
  | cons v vs ih => simp [referencesAll, ih]

end Value

namespace World

variable {c : Catalog} {w : World}

/-! ## Within reach -/

/-- The function value or sequence is in use or logged, or such a one refers to it, and so on. -/
inductive Reaches (w : World) : Reference → Prop
  | used {h : Holding} {v : Value} {r : Reference} (hh : h ∈ w.held) (hv : v ∈ h.values)
      (hr : r ∈ v.references) : Reaches w r
  | logged {v : Value} {r : Reference} (hv : v ∈ w.log) (hr : r ∈ v.references) : Reaches w r
  | through {q r : Reference} (hq : Reaches w q) (hr : r ∈ w.referencesOf q) : Reaches w r

/-- What is marked refers only to what is in the set or pending. -/
def Closes (w : World) (rs : References) (pending : List Reference) : Prop :=
  ∀ q r, rs.Marks q → r ∈ w.referencesOf q → rs.contains r = true ∨ r ∈ pending

variable {rs : References} {pending : List Reference}

/-- The search goes on with the first pending reference that is not in the set. -/
theorem pending_cases (rs : References) (pending : List Reference) :
    (pending.dropWhile rs.contains = [] ∧ ∀ r ∈ pending, rs.contains r = true) ∨
    ∃ r rest, pending.dropWhile rs.contains = r :: rest ∧ r ∈ pending ∧
      rs.contains r = false ∧ (∀ q ∈ rest, q ∈ pending) ∧
      ∀ q ∈ pending, rs.contains q = true ∨ q = r ∨ q ∈ rest := by
  induction pending with
  | nil => exact .inl ⟨rfl, nofun⟩
  | cons r rest ih =>
    rw [List.dropWhile_cons]
    rcases hr : rs.contains r with _ | _
    · refine .inr ⟨r, rest, by simp, List.mem_cons_self, hr,
        fun q hq => List.mem_cons_of_mem r hq, fun q hq => .inr (List.mem_cons.mp hq)⟩
    · rw [if_pos rfl]
      rcases ih with ⟨hnil, hall⟩ | ⟨q, others, hcons, hq, hnot, hothers, hrest⟩
      · exact .inl ⟨hnil, List.forall_mem_cons.mpr ⟨hr, hall⟩⟩
      · exact .inr ⟨q, others, hcons, List.mem_cons_of_mem r hq, hnot,
          fun p hp => List.mem_cons_of_mem r (hothers p hp),
          List.forall_mem_cons.mpr ⟨.inl hr, hrest⟩⟩

/-- The search finds only what is within reach. -/
theorem reaches_of_marks (n : Nat) (hrs : ∀ r, rs.Marks r → w.Reaches r)
    (hpending : ∀ r ∈ pending, w.Reaches r) (r : Reference)
    (h : (w.reach n rs pending).Marks r) : w.Reaches r := by
  induction n generalizing rs pending with
  | zero => exact hrs r h
  | succ n ih =>
    rw [reach] at h
    rcases pending_cases rs pending with ⟨hnil, -⟩ | ⟨q, rest, hcons, hq, -, hrest, -⟩
    · rw [hnil] at h
      exact hrs r h
    · rw [hcons] at h
      refine ih (fun p hp => ?_) (fun p hp => ?_) h
      · rcases References.marks_insert.mp hp with hp | ⟨rfl, -⟩
        · exact hrs p hp
        · exact hpending p hq
      · rcases List.mem_append.mp hp with hp | hp
        · exact .through (hpending q hq) hp
        · exact hpending p (hrest p hp)

/-- With as many steps as references are missing, the search ends with all that is pending in the
set, and with nothing that is marked referring to anything else. -/
theorem closes_reach (n : Nat) (hn : rs.missing ≤ n) (h : w.Closes rs pending) :
    w.Closes (w.reach n rs pending) [] ∧
      ∀ r, rs.contains r = true ∨ r ∈ pending → (w.reach n rs pending).contains r = true := by
  induction n generalizing rs pending with
  | zero =>
    have hall := References.contains_of_missing (Nat.le_zero.mp hn)
    exact ⟨fun q r _ _ => .inl (hall r), fun r _ => hall r⟩
  | succ n ih =>
    rw [reach]
    rcases pending_cases rs pending with ⟨hnil, hall⟩ | ⟨p, rest, hcons, hp, hnot, -, hrest⟩
    · rw [hnil]
      have hpending (r : Reference) (hr : rs.contains r = true ∨ r ∈ pending) :
          rs.contains r = true := hr.elim id (hall r)
      exact ⟨fun q r hq hr => .inl (hpending r (h q r hq hr)), hpending⟩
    · rw [hcons]
      have hmissing := References.missing_insert hnot
      have hmarked : (rs.insert p).contains p = true :=
        (References.marks_insert.mpr
          (.inr ⟨rfl, (References.fits_of_not_contains hnot).1⟩)).contains
      -- What was in the set or pending is so again, with what `p` refers to.
      have hstep (r : Reference) (hr : rs.contains r = true ∨ r ∈ pending) :
          (rs.insert p).contains r = true ∨ r ∈ w.referencesOf p ++ rest := by
        rcases hr with hr | hr
        · exact .inl (References.contains_insert hr)
        · rcases hrest r hr with hr | rfl | hr
          · exact .inl (References.contains_insert hr)
          · exact .inl hmarked
          · exact .inr (List.mem_append_right _ hr)
      have hcloses : w.Closes (rs.insert p) (w.referencesOf p ++ rest) := by
        intro q r hq hr
        rcases References.marks_insert.mp hq with hq | ⟨rfl, -⟩
        · exact hstep r (h q r hq hr)
        · exact .inr (List.mem_append_left _ hr)
      obtain ⟨hclosed, hcontains⟩ := ih (by omega) hcloses
      exact ⟨hclosed, fun r hr => hcontains r (hstep r hr)⟩

theorem fits_reach (n : Nat) (r : Reference) : (w.reach n rs pending).Fits r ↔ rs.Fits r := by
  induction n generalizing rs pending with
  | zero => exact .rfl
  | succ n ih =>
    rw [reach]
    split
    · exact .rfl
    · exact ih.trans References.fits_insert

/-- There is something made that the reference refers to. -/
def Made (w : World) : Reference → Prop
  | .function f => f < w.functions.size
  | .sequence s => s < w.sequences.size

theorem made_of_mem_referencesOf {q r : Reference} (h : r ∈ w.referencesOf q) : w.Made q := by
  cases q with
  | function f =>
    by_cases hf : f < w.functions.size
    · exact hf
    · simp [referencesOf, hf] at h
  | sequence s =>
    by_cases hs : s < w.sequences.size
    · exact hs
    · simp [referencesOf, hs] at h

theorem fits_reachable {r : Reference} : w.reachable.Fits r ↔ w.Made r := by
  refine (fits_reach _ r).trans ?_
  cases r <;> simp [References.Fits, Made]

theorem mem_inUse {r : Reference} :
    r ∈ Value.referencesAll (w.held.flatMap (·.values) ++ w.log.toList) ↔
      (∃ h ∈ w.held, ∃ v ∈ h.values, r ∈ v.references) ∨ ∃ v ∈ w.log, r ∈ v.references := by
  simp only [Value.mem_referencesAll, List.mem_append, List.mem_flatMap, Array.mem_toList_iff]
  constructor
  · rintro ⟨v, ⟨h, hh, hv⟩ | hv, hr⟩
    · exact .inl ⟨h, hh, v, hv, hr⟩
    · exact .inr ⟨v, hv, hr⟩
  · rintro (⟨h, hh, v, hv, hr⟩ | ⟨v, hv, hr⟩)
    · exact ⟨v, .inl ⟨h, hh, hv⟩, hr⟩
    · exact ⟨v, .inr hv, hr⟩

theorem Reaches.contains {r : Reference} (h : w.Reaches r) : w.reachable.contains r = true := by
  let blank : References :=
    ⟨.replicate w.functions.size false, .replicate w.sequences.size false⟩
  have hmissing : blank.missing ≤ w.functions.size + w.sequences.size := by
    simp [blank, References.missing]
  have hunmarked (q : Reference) : ¬ blank.Marks q := by
    cases q <;> simp [blank, References.Marks, Array.getElem?_replicate]
  have hcloses : w.Closes blank
      (Value.referencesAll (w.held.flatMap (·.values) ++ w.log.toList)) :=
    fun q r hq => absurd hq (hunmarked q)
  obtain ⟨hclosed, hcontains⟩ := closes_reach _ hmissing hcloses
  induction h with
  | used hh hv hr => exact hcontains _ (.inr (mem_inUse.mpr (.inl ⟨_, hh, _, hv, hr⟩)))
  | logged hv hr => exact hcontains _ (.inr (mem_inUse.mpr (.inr ⟨_, hv, hr⟩)))
  | through _ hr ih =>
    have hmarks := References.contains_iff.mp ih
      (fits_reachable.mpr (made_of_mem_referencesOf hr))
    exact (hclosed _ _ hmarks hr).resolve_right List.not_mem_nil

/-- The search for what is within reach finds exactly that. -/
theorem marks_reachable {r : Reference} (h : w.Made r) : w.reachable.Marks r ↔ w.Reaches r := by
  constructor
  · refine reaches_of_marks _ (fun q hq => ?_) (fun q hq => ?_) r
    · cases q <;> simp [References.Marks, Array.getElem?_replicate] at hq
    · rcases mem_inUse.mp hq with ⟨g, hg, v, hv, hr⟩ | ⟨v, hv, hr⟩
      · exact .used hg hv hr
      · exact .logged hv hr
  · exact fun hreach => References.contains_iff.mp hreach.contains (fits_reachable.mpr h)

theorem mem_retained {d : DefId} :
    d ∈ w.retained ↔ ∃ (f : FuncId) (g : Callback), w.Reaches (.function f) ∧
      w.functions[f]? = some g ∧ d ∈ g.holds.definitions := by
  have hmarks {f : FuncId} {g : Callback} (hg : w.functions[f]? = some g) :
      w.reachable.functions[f]? = some true ↔ w.Reaches (.function f) :=
    marks_reachable (r := .function f) (Array.getElem?_eq_some_iff.mp hg).1
  simp only [retained, List.mem_flatMap]
  constructor
  · rintro ⟨⟨g, reached⟩, hmem, hd⟩
    obtain ⟨f, hf⟩ := List.mem_iff_getElem?.mp hmem
    obtain ⟨hg, hreached⟩ := List.getElem?_zip_eq_some.mp hf
    rw [Array.getElem?_toList] at hg hreached
    cases reached with
    | true => exact ⟨f, g, (hmarks hg).mp hreached, hg, hd⟩
    | false => cases hd
  · rintro ⟨f, g, hreach, hg, hd⟩
    refine ⟨(g, true), List.mem_iff_getElem?.mpr ⟨f, List.getElem?_zip_eq_some.mpr ⟨?_, ?_⟩⟩, hd⟩
    · exact (Array.getElem?_toList ..).trans hg
    · exact (Array.getElem?_toList ..).trans ((hmarks hg).mpr hreach)

/-! ## Held -/

/-- Something holds the definition itself. -/
inductive Holder (w : World) (d : DefId) : Prop
  | named {name : String} (h : (name, d) ∈ w.names)
  | installed (h : w.ambient = some d)
  /-- It is to be installed again. -/
  | saved (h : some d ∈ w.saved)
  /-- A call of it has not returned, or a part of a program that it was installed for. -/
  | used {g : Holding} (hg : g ∈ w.held) (hd : d ∈ g.definitions)
  /-- A function value within reach refers to it. -/
  | function {f : FuncId} {g : Callback} (hreach : w.Reaches (.function f))
      (hg : w.functions[f]? = some g) (hd : d ∈ g.holds.definitions)

/-- Something holds the definition, or one that is layered on it. -/
def Held (c : Catalog) (w : World) (d : DefId) : Prop :=
  ∃ root, w.Holder root ∧ d ∈ c.lineage root

theorem holder_iff {d : DefId} : w.Holder d ↔ d ∈ w.roots ∨ d ∈ w.retained := by
  rw [mem_retained]
  simp only [roots, List.mem_append, List.mem_map, Option.mem_toList,
    List.mem_filterMap, List.mem_flatMap, id]
  constructor
  · rintro (@⟨name, h⟩ | h | h | ⟨hg, hd⟩ | ⟨hreach, hg, hd⟩)
    · exact .inl (.inl (.inl (.inl ⟨_, h, rfl⟩)))
    · exact .inl (.inl (.inl (.inr h)))
    · exact .inl (.inl (.inr ⟨_, h, rfl⟩))
    · exact .inl (.inr ⟨_, hg, hd⟩)
    · exact .inr ⟨_, _, hreach, hg, hd⟩
  · rintro ((((⟨⟨name, _⟩, h, rfl⟩ | h) | ⟨_, h, rfl⟩) | ⟨g, hg, hd⟩) | ⟨f, g, hreach, hg, hd⟩)
    · exact .named h
    · exact .installed h
    · exact .saved h
    · exact .used hg hd
    · exact .function hreach hg hd

/-- What is alive is held. -/
theorem alive_iff_held {d : DefId} : w.alive c d = true ↔ w.Held c d := by
  simp only [alive_iff, Held, holder_iff]

end World

end EffectLayers
