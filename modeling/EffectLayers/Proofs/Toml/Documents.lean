import EffectLayers.Options
import EffectLayers.Proofs.Text.Quoted
import EffectLayers.Proofs.Toml.Texts
import Mathlib

/-!
# Options survive their documents

Documents are read by the grammar and written in lines, and options are read back from their
document whatever writer and reader it goes through.

## Main statements

* `Toml.key?_key`, `Toml.scalar?_datum`: keys and values of the grammar are read.
* `Toml.statements?_document`: so are the lines of a document.
* `Toml.lawful_read?`, `Toml.lawful_write?`: what is relied on of readers and writers.
* `Options.survive_toml`: options are read back from their document.
-/

namespace EffectLayers

namespace Toml

open Grammar

/-! ## Keys -/

/-- A written key begins with none of the characters that something else begins with. -/
theorem exists_cons_of_key {key : String} {w : List Char} (h : Key key w) :
    ∃ c cs, w = c :: cs ∧ c ∉ [' ', '\t', '[', '#', '\n', '\r', '\uFEFF'] := by
  cases h with
  | bare h =>
    obtain ⟨c, cs, hkey⟩ := List.exists_cons_of_ne_nil h.1
    refine ⟨c, cs, hkey, fun hc => ?_⟩
    have hbare := List.all_eq_true.mp h.2 c (hkey ▸ List.mem_cons_self)
    simp only [List.mem_cons, List.not_mem_nil, or_false] at hc
    rcases hc with rfl | rfl | rfl | rfl | rfl | rfl | rfl
    all_goals exact absurd hbare (by decide)
  | basic => exact ⟨_, _, rfl, by decide⟩
  | literal => exact ⟨_, _, rfl, by decide⟩

theorem key?_key {key : String} {w rest : List Char} (h : Key key w)
    (hrest : ∀ c, rest.head? = some c → isBareKey c = false) :
    key? (w ++ rest) = some (key.toList, rest) := by
  cases h with
  | bare h =>
    have hspan := Text.span_append (List.all_eq_true.mp h.2) rest hrest
    have hne (q : Char) (hq : isBareKey q = false) (cs : List Char) :
        key.toList ++ rest ≠ q :: cs := by
      intro h'
      obtain ⟨c, v, hkey⟩ := List.exists_cons_of_ne_nil h.1
      rw [hkey] at h'
      have hc := List.all_eq_true.mp h.2 c (hkey ▸ List.mem_cons_self)
      rw [(List.cons.inj h').1, hq] at hc
      exact nomatch hc
    rw [key?]
    · simp only [hspan, List.isEmpty_iff, if_neg h.1]
    · exact hne '"' (by decide)
    · exact hne '\'' (by decide)
  | @basic w h => simpa [key?] using basicLine?_chars h rest
  | @literal w h => simpa [key?] using literalLine?_chars h rest

/-! ## Blanks and line ends -/

theorem skipBlank_append {b cs : List Char} (hb : Blanks b)
    (hcs : ∀ c, cs.head? = some c → isBlank c = false) : skipBlank (b ++ cs) = cs := by
  rw [skipBlank, List.dropWhile_append_of_pos hb]
  cases cs with
  | nil => rfl
  | cons c cs => exact List.dropWhile_cons_of_neg (by simp [hcs c rfl])

/-- What begins with blanks, if there are any. -/
theorem head?_blanks {b cs : List Char} (hb : Blanks b) {c : Char}
    (hc : (b ++ cs).head? = some c) : c = ' ' ∨ c = '\t' ∨ cs.head? = some c := by
  cases b with
  | nil => exact .inr (.inr hc)
  | cons d b =>
    obtain rfl : d = c := Option.some.inj hc
    have hd := hb d List.mem_cons_self
    simp only [isBlank, Bool.or_eq_true, beq_iff_eq] at hd
    exact hd.imp_right .inl

/-- The end of a line of which nothing is left but `cs`: its line end, or the end of the
document. -/
inductive Ending (rest : List Char) : List Char → Prop where
  | line {e : List Char} (h : LineEnd e) : Ending rest (e ++ rest)
  | document (h : rest = []) : Ending rest []

theorem Ending.head? {rest cs : List Char} (h : Ending rest cs) :
    ∀ c, cs.head? = some c → c = '\n' ∨ c = '\r' := by
  intro c hc
  cases h with
  | line h => cases h <;> simp_all [eq_comm]
  | document h => simp at hc

/-- Blanks and a comment are dropped with the line end after them. -/
theorem endLine?_ending {b r rest cs : List Char} (hb : Blanks b) (hr : Comment r)
    (h : Ending rest cs) : endLine? (b ++ (r ++ cs)) = some rest := by
  cases hr with
  | absent =>
    have hskip : skipBlank (b ++ ([] ++ cs)) = cs := skipBlank_append hb fun c hc => by
      rcases h.head? c hc with rfl | rfl <;> rfl
    rw [endLine?, hskip]
    cases h with
    | line h => cases h <;> rfl
    | document h => rw [h]; rfl
  | @present w hw =>
    have hskip : skipBlank (b ++ ('#' :: w ++ cs)) = '#' :: (w ++ cs) :=
      skipBlank_append hb fun c hc => Option.some.inj hc ▸ rfl
    have hdrop : (w ++ cs).dropWhile isComment = cs := by
      rw [List.dropWhile_append_of_pos hw]
      cases cs with
      | nil => rfl
      | cons c cs =>
        refine List.dropWhile_cons_of_neg ?_
        rcases h.head? c rfl with rfl | rfl <;> decide
    rw [endLine?, hskip]
    simp only [hdrop]
    cases h with
    | line h => cases h <;> rfl
    | document h => rw [h]; rfl

/-- What begins with anything else is no rest of a line. -/
theorem endLine?_eq_none {c : Char} {cs : List Char} (hskip : skipBlank (c :: cs) = c :: cs)
    (hc : c ≠ '#' ∧ c ≠ '\n' ∧ c ≠ '\r') : endLine? (c :: cs) = none := by
  obtain ⟨hcomment, hn, hr⟩ := hc
  have hnewline : newline? (c :: cs) = none := by
    rw [newline?]
    · exact fun _ h => hn (List.cons.inj h).1
    · exact fun _ h => hr (List.cons.inj h).1
  simp [endLine?, hskip, hcomment, hnewline]

/-! ## Values -/

/-- A written value begins with a letter or a quote. -/
theorem exists_cons_of_datum {s : Scalar} {w : List Char} (h : Grammar.Datum s w) :
    ∃ c v, w = c :: v ∧ c ∈ ['t', 'f', '"', '\''] := by
  rcases h with _ | _ | ⟨_ | _ | _ | _⟩
  all_goals exact ⟨_, _, rfl, by decide⟩

/-- What may follow a value on its line. -/
def EndsValue (rest : List Char) : Prop := rest.head? ≠ some '"' ∧ rest.head? ≠ some '\''

theorem scalar?_datum {s : Scalar} {w rest : List Char} (h : Grammar.Datum s w)
    (hrest : EndsValue rest) :
    scalar? (w ++ rest) = some (s, rest) := by
  cases h with
  | yes => rfl
  | no => rfl
  | @text s w h =>
    have hread := readText?_text h hrest
    obtain ⟨c, v, hw, hc⟩ : ∃ c v, w = c :: v ∧ (c = '"' ∨ c = '\'') := by
      cases h <;> exact ⟨_, _, rfl, by decide⟩
    have hne : 't' ≠ c ∧ 'f' ≠ c := by
      rcases hc with rfl | rfl <;> decide
    rw [scalar?, hread, hw, if_neg (by simp [hne.1]), if_neg (by simp [hne.2])]
    simp

theorem value?_datum (n : Nat) {s : Scalar} {w rest : List Char} (h : Grammar.Datum s w)
    (hrest : EndsValue rest) : value? n (w ++ rest) = some (.scalar s, rest) := by
  obtain ⟨c, v, hw, hc⟩ := exists_cons_of_datum h
  have hne : c ≠ '\x7b' ∧ c ≠ '[' := by
    constructor <;> rintro rfl <;> exact absurd hc (by decide)
  rw [value?]
  · rw [scalar?_datum h hrest]
    rfl
  · rw [hw]
    exact fun _ h => hne.2 (List.cons.inj h).1
  · rw [hw]
    exact fun _ _ _ h => hne.1 (List.cons.inj h).1

/-! ## Lines -/

theorem assigned?_key {key : String} {k b₁ b₂ rest : List Char} (h : Key key k) (hb₁ : Blanks b₁)
    (hb₂ : Blanks b₂) (hrest : ∀ c, rest.head? = some c → isBlank c = false) :
    assigned? (k ++ (b₁ ++ '=' :: (b₂ ++ rest))) = some ([key], rest) := by
  have hend : ∀ c, (b₁ ++ '=' :: (b₂ ++ rest)).head? = some c → isBareKey c = false := by
    intro c hc
    rcases head?_blanks hb₁ hc with rfl | rfl | hc
    · rfl
    · rfl
    · exact Option.some.inj hc ▸ rfl
  have hskip : skipBlank (b₁ ++ '=' :: (b₂ ++ rest)) = '=' :: (b₂ ++ rest) :=
    skipBlank_append hb₁ fun c hc => Option.some.inj hc ▸ rfl
  have hpath (n : Nat) : path? (n + 1) (k ++ (b₁ ++ '=' :: (b₂ ++ rest))) =
      some ([key], '=' :: (b₂ ++ rest)) := by
    simp [path?, key?_key h hend, hskip]
  obtain ⟨n, hn⟩ : ∃ n, (k ++ (b₁ ++ '=' :: (b₂ ++ rest))).length = n + 1 := by
    obtain ⟨c, cs, rfl, -⟩ := exists_cons_of_key h
    exact ⟨_, rfl⟩
  rw [assigned?, hn, hpath]
  simp [skipBlank_append hb₂ hrest]

/-- A line that gives a value to a key is read. -/
theorem statement?_entry {key : String} {value : Scalar} {k b₁ b₂ v b₃ r rest cs : List Char}
    (hkey : Key key k) (hb₁ : Blanks b₁) (hb₂ : Blanks b₂) (hvalue : Grammar.Datum value v)
    (hb₃ : Blanks b₃) (hr : Comment r) (hcs : Ending rest cs) :
    statement? (k ++ (b₁ ++ '=' :: (b₂ ++ (v ++ (b₃ ++ (r ++ cs)))))) =
      some (.entry [key] (.scalar value), rest) := by
  have hends : EndsValue (b₃ ++ (r ++ cs)) := by
    have hhead : ∀ c, (b₃ ++ (r ++ cs)).head? = some c → c ∈ [' ', '\t', '#', '\n', '\r'] := by
      intro c hc
      rcases head?_blanks hb₃ hc with rfl | rfl | hc
      · decide
      · decide
      cases hr with
      | absent => rcases hcs.head? c hc with rfl | rfl <;> decide
      | present => exact Option.some.inj hc ▸ (by decide)
    constructor <;> exact fun h => absurd (hhead _ h) (by decide)
  have hblank : ∀ c, (v ++ (b₃ ++ (r ++ cs))).head? = some c → isBlank c = false := by
    obtain ⟨d, w, rfl, hd⟩ := exists_cons_of_datum hvalue
    intro c hc
    obtain rfl : d = c := Option.some.inj hc
    simp only [List.mem_cons, List.not_mem_nil, or_false] at hd
    rcases hd with rfl | rfl | rfl | rfl <;> decide
  have hassigned := assigned?_key hkey hb₁ hb₂ hblank
  obtain ⟨c, w, rfl, hc⟩ := exists_cons_of_key hkey
  rw [statement?]
  · simp only [hassigned, bind, Option.bind, value?_datum _ hvalue hends,
      endLine?_ending hb₃ hr hcs]
    rfl
  · exact fun _ h => hc (by simp [(List.cons.inj h).1])

/-! ## Documents -/

/-- What a line says comes before what the rest of the document says. -/
theorem statements?_line {es : List (String × Scalar)} {w rest cs : List Char} (h : Line es w)
    (hcs : Ending rest cs) (n : Nat) :
    statements? (n + 1) (w ++ cs) = (statements? n rest).map
      ((es.map fun (key, value) => .entry [key] (.scalar value)) ++ ·) := by
  cases h with
  | @blank b r hb hr =>
    have hskip : skipBlank (b ++ (r ++ cs)) = r ++ cs := skipBlank_append hb fun c hc => by
      cases hr with
      | absent => rcases hcs.head? c hc with rfl | rfl <;> rfl
      | present => exact Option.some.inj hc ▸ rfl
    have hend : endLine? (r ++ cs) = some rest :=
      endLine?_ending (b := []) (List.forall_mem_nil _) hr hcs
    rw [List.append_assoc, statements?, hskip]
    split
    · rename_i hnil
      obtain ⟨rfl, rfl⟩ := List.append_eq_nil_iff.mp hnil
      obtain rfl : rest = [] := by simpa [endLine?, skipBlank] using hend.symm
      cases n <;> rfl
    · simp [hend]
  | @entry key value b k b₁ b₂ v b₃ r hb hkey hb₁ hb₂ hvalue hb₃ hr =>
    have hstatement := statement?_entry hkey hb₁ hb₂ hvalue hb₃ hr hcs
    obtain ⟨c, w, rfl, hc⟩ := exists_cons_of_key hkey
    simp only [List.mem_cons, List.not_mem_nil, or_false, not_or] at hc
    have hblank : ∀ (cs : List Char) (d : Char), (c :: cs).head? = some d → isBlank d = false := by
      intro cs d hd
      obtain rfl : c = d := Option.some.inj hd
      simp [isBlank, hc]
    simp only [List.append_assoc, List.cons_append] at hstatement ⊢
    have hend (cs : List Char) : endLine? (c :: cs) = none :=
      endLine?_eq_none (skipBlank_append (List.forall_mem_nil _) (hblank cs))
        ⟨hc.2.2.2.1, hc.2.2.2.2.1, hc.2.2.2.2.2.1⟩
    simp only [statements?, skipBlank_append hb (hblank _), hend, hstatement,
      Option.bind_eq_bind, Option.bind_some]
    cases statements? n rest <;> rfl

/-- The lines of a document are read. -/
theorem statements?_document {es : List (String × Scalar)} {w : List Char} (h : Document es w)
    {n : Nat} (hn : w.length ≤ n) :
    statements? n w = some (es.map fun (key, value) => .entry [key] (.scalar value)) := by
  induction h generalizing n with
  | @last es w h =>
    cases n with
    | zero => cases h <;> simp_all [statements?]
    | succ n =>
      have hline := statements?_line h (.document rfl) n
      rw [List.append_nil] at hline
      rw [hline]
      cases n <;> simp [statements?, skipBlank]
  | @line es es' w e w' h he _ ih =>
    have hlength : 0 < e.length := by cases he <;> decide
    simp only [List.length_append] at hn
    obtain ⟨n, rfl⟩ : ∃ m, n = m + 1 := ⟨n - 1, by omega⟩
    rw [statements?_line h (.line he), ih (by omega), Option.map_some, List.map_append]

theorem lookup_eq_none {α : Type} {key : String} {es : List (String × α)}
    (h : key ∉ es.map (·.1)) : es.lookup key = none := by
  rw [List.lookup_eq_none_iff]
  rintro ⟨k, v⟩ hkv
  exact bne_iff_ne.mpr fun heq => h (List.mem_map.mpr ⟨_, hkv, heq.symm⟩)

/-- Where no key is there twice, what is looked up is what is there. -/
theorem lookup_eq_some_iff_mem {α : Type} {es : List (String × α)} (h : (es.map (·.1)).Nodup)
    {key : String} {value : α} : es.lookup key = some value ↔ (key, value) ∈ es := by
  induction es with
  | nil => simp
  | cons e es ih =>
    obtain ⟨k, v⟩ := e
    obtain ⟨hk, hes⟩ := List.nodup_cons.mp h
    by_cases hkey : key = k
    · subst hkey
      have hnot : (key, value) ∉ es := fun hmem => hk (List.mem_map.mpr ⟨_, hmem, rfl⟩)
      simp [hnot, eq_comm]
    · have hne : (key == k) = false := beq_false_of_ne hkey
      simp [List.lookup_cons, hne, hkey, ih hes]

theorem lookup_perm {α : Type} {es es' : List (String × α)} (h : es.Perm es')
    (hkeys : (es'.map (·.1)).Nodup) (key : String) : es.lookup key = es'.lookup key := by
  have hkeys' : (es.map (·.1)).Nodup := (h.map _).nodup_iff.mpr hkeys
  exact Option.ext fun v => by
    simp only [lookup_eq_some_iff_mem hkeys, lookup_eq_some_iff_mem hkeys', h.mem_iff]

/-- Values given to distinct new keys are added in their order. -/
theorem collect?_entries {entries : List (String × Scalar)} (es : Entries)
    (h : ((es.map (·.1)) ++ entries.map (·.1)).Nodup) :
    collect? (entries.map fun (key, value) => .entry [key] (.scalar value)) [] es =
      some (es ++ entries.map fun (key, value) => (key, .scalar value)) := by
  induction entries generalizing es with
  | nil => simp [collect?]
  | cons e entries ih =>
    obtain ⟨key, value⟩ := e
    have hnew : es.lookup key = none := by
      refine lookup_eq_none fun hmem => ?_
      exact (List.nodup_append.mp h).2.2 key hmem key List.mem_cons_self rfl
    have hrest := ih (es ++ [(key, .scalar value)]) (by simpa using h)
    simp only [List.map_cons, collect?, within?, assign?, hnew, Option.bind_some, hrest,
      List.append_assoc, List.singleton_append]

theorem head?_line {es : List (String × Scalar)} {w : List Char} (h : Line es w) :
    w.head? ≠ some '\uFEFF' := by
  have hblanks {b cs : List Char} (hb : Blanks b) (hcs : cs.head? ≠ some '\uFEFF') :
      (b ++ cs).head? ≠ some '\uFEFF' := fun h => by
    rcases head?_blanks hb h with h | h | h
    · exact absurd h (by decide)
    · exact absurd h (by decide)
    · exact hcs h
  cases h with
  | blank hb hr => exact hblanks hb (by cases hr <;> simp)
  | entry hb hkey =>
    obtain ⟨c, cs, rfl, hc⟩ := exists_cons_of_key hkey
    refine hblanks hb fun h => ?_
    obtain rfl : c = '\uFEFF' := Option.some.inj h
    exact hc (by decide)

/-- A document of the grammar begins with no byte order mark. -/
theorem skipMark_document {es : List (String × Scalar)} {w : List Char} (h : Document es w) :
    skipMark w = w := by
  have hhead : w.head? ≠ some '\uFEFF' := by
    cases h with
    | last h => exact head?_line h
    | @line _ _ w _ _ h he =>
      have hw := head?_line h
      cases w with
      | nil => cases he <;> simp
      | cons => exact hw
  rw [skipMark]
  exact fun _ h => hhead (congrArg List.head? h)

/-- Documents are read by the grammar. -/
theorem lawful_read? : Reader.Lawful read? where
  reads es s h hnodup := by
    have hstatements := statements?_document h (Nat.le_refl _)
    have hcollect := collect?_entries [] (by simpa using hnodup)
    exact ⟨_, by simp [read?, skipMark_document h, hstatements, hcollect], .refl _⟩

/-- Every document is written in lines. -/
theorem lawful_write? : Writer.Lawful write? fun _ => True where
  words _ _ := trivial
  writes es _ := ⟨write es, rfl⟩
  lines es s _ h := by
    obtain rfl : write es = s := Option.some.inj h
    rw [write, String.toList_ofList]
    clear * -
    induction es with
    | nil => exact .nil
    | cons e es ih =>
      obtain ⟨key, value⟩ := e
      have hform : ScalarForm value (writeScalar value) := by
        cases value with
        | truth b => exact .truth b
        | text s => exact .text (form_writeText s.toList)
      have hlines : Lines ((key, value) :: es) _ := .cons hform ih
      simpa [writeLine] using hlines

end Toml

namespace Options

theorem ofEntries?_entries (o : Options) :
    ofEntries? (o.entries.map fun (key, value) => (key, .scalar value)) = some o := by
  obtain ⟨escape, carrier, coercion, context, dispatch⟩ := o
  have hcontext : ContextMode.ofName? context.name = some context := by cases context <;> decide
  have hdispatch : Dispatch.ofName? dispatch.name = some dispatch := by cases dispatch <;> decide
  have hnone : standard.carrier = none := rfl
  cases carrier <;>
    simp [entries, ofEntries?, keys, field?, List.lookup, Toml.Item.truth?, Toml.Item.text?,
      Toml.Item.choice?, hcontext, hdispatch, hnone]

/-- The order of entries does not matter. -/
theorem ofEntries?_perm {es es' : Toml.Entries} (h : es.Perm es') (hkeys : (es'.map (·.1)).Nodup) :
    ofEntries? es = ofEntries? es' := by
  have hlookup (key : String) : es.lookup key = es'.lookup key := Toml.lookup_perm h hkeys key
  simp only [ofEntries?, field?, hlookup, h.mem_iff]

theorem isBare_entries (o : Options) : ∀ e ∈ o.entries, Toml.IsBare e.1 := by
  obtain ⟨escape, carrier, coercion, context, dispatch⟩ := o
  cases carrier <;> simp [entries] <;> decide

theorem nodup_entries (o : Options) : (o.entries.map (·.1)).Nodup := by
  obtain ⟨escape, carrier, coercion, context, dispatch⟩ := o
  cases carrier <;> simp [entries]

/-- The texts of the entries are the name of the carrier and words. -/
theorem texts_entries (o : Options) {e : String × Toml.Scalar} (he : e ∈ o.entries) {s : String}
    (hs : e.2 = .text s) : o.carrier = some s ∨ Toml.IsBare s := by
  simp only [entries, List.mem_append, List.mem_cons, List.not_mem_nil, or_false,
    Option.mem_toList, Option.map_eq_some_iff] at he
  rcases he with (rfl | ⟨name, hname, rfl⟩) | rfl | rfl | rfl
  · exact nomatch hs
  · obtain rfl : name = s := Toml.Scalar.text.inj hs
    exact .inl hname
  · exact nomatch hs
  · obtain rfl : o.context.name = s := Toml.Scalar.text.inj hs
    exact .inr (by cases o.context <;> decide)
  · obtain rfl : o.dispatch.name = s := Toml.Scalar.text.inj hs
    exact .inr (by cases o.dispatch <;> decide)

variable {read? : Toml.Reader} {write? : Toml.Writer} {Can : String → Prop}

/-- Options are read back from their document, whatever writer it is by and whatever reader reads
it, so that a document is accepted again, with the same options, after it was read and written.
They have a document, if the name of the carrier can be written. -/
theorem survive_toml (hwrite : Toml.Writer.Lawful write? Can) (hread : Toml.Reader.Lawful read?) :
    (∀ (o : Options) (s : String), o.toToml? write? = some s → ofToml? read? s = some o) ∧
      (∀ o : Options, (∀ name, o.carrier = some name → Can name) →
        ∃ s, o.toToml? write? = some s ∧ ofToml? read? s = some o) ∧
      ∀ (t : String) (o : Options), ofToml? read? t = some o →
        ∀ s, o.toToml? write? = some s → ofToml? read? s = ofToml? read? t := by
  have hsurvives (o : Options) (s : String) (hs : o.toToml? write? = some s) :
      ofToml? read? s = some o := by
    have hlines := hwrite.lines o.entries s o.isBare_entries hs
    obtain ⟨entries, hentries, hperm⟩ :=
      hread.reads _ s (hlines.document o.isBare_entries) o.nodup_entries
    have hkeys : ((o.entries.map fun (key, value) => (key, Toml.Item.scalar value)).map
        (·.1)).Nodup := by
      simpa [Function.comp_def] using o.nodup_entries
    rw [ofToml?, hentries]
    exact (ofEntries?_perm hperm hkeys).trans (ofEntries?_entries o)
  refine ⟨hsurvives, fun o ho => ?_, fun t o ht s hs => (hsurvives o s hs).trans ht.symm⟩
  obtain ⟨s, hs⟩ : ∃ s, o.toToml? write? = some s := hwrite.writes o.entries fun e he =>
    ⟨o.isBare_entries e he, fun s hs => (o.texts_entries he hs).elim (ho s) (hwrite.words s)⟩
  exact ⟨s, hs, hsurvives o s hs⟩

/-- A name with line ends, a tab, a backslash, a letter that is not of the Latin alphabet and both
kinds of quote, three of them in a row. -/
theorem survive_toml_quotes :
    let o : Options := { standard with
      carrier := some "\nm\t\\λ\"\"\"\x27\x27\x27\"" }
    Toml.Writer.Lawful Toml.write? (fun _ => True) ∧ Toml.Reader.Lawful Toml.read? ∧
      o.toToml? Toml.write? = some o.toToml ∧ ofToml? Toml.read? o.toToml = some o :=
  ⟨Toml.lawful_write?, Toml.lawful_read?, toToml?_write? _,
    (survive_toml Toml.lawful_write? Toml.lawful_read?).1 _ _ (toToml?_write? _)⟩

end Options

end EffectLayers
