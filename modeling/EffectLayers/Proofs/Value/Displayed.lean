import EffectLayers.Proofs.Text.Layouts
import EffectLayers.Proofs.Text.Quoted
import EffectLayers.Value.Display
import Mathlib

/-!
# Displayed values are read back

A reader that ignores how a text is laid out finds the value again in every layout of its display
form. So the display form identifies values, whatever line breaks are chosen.

## Main definitions

* `Text.isName`: the names that show where they end, identifiers among them.
* `Value.isData`: the values that are made of data, signals and carriers.
* `Value.read?`: a value at the front of a text.
* `Value.ReadFrom`: a value is read from a text, whatever follows.

## Main statements

* `Value.readFrom_lays`: values are read from every layout.
* `Value.display_identifies`: values with the same text are equal.
-/

namespace EffectLayers

/-! ## Names -/

namespace Text

/-- Whether a character may stand in a name or in a number: what surrounds values is none. -/
def isWordChar (c : Char) : Bool :=
  c ∉ ['(', ')', '[', ']', '\x7b', '\x7d', ',', '"', '#', ' ', '\n']

/-- Names that show where they end: no identifier has another character in it. -/
def isName (s : String) : Bool := !s.toList.isEmpty && s.toList.all isWordChar

end Text

namespace Value

open Text

mutual

/-- Whether the value is made of data, signals and carriers, with proper names. -/
def isData : Value → Bool
  | unit | bool _ | int _ | str _ => true
  | list items => areData items
  | ctor name arg => isName name && arg.isData
  | signal payload _ => payload.isData
  | carrier brand inner => isName brand.name && inner.isData
  | func _ | object .. | only .. | mute .. | cursor .. => false

def areData : List Value → Bool
  | [] => true
  | v :: vs => v.isData && areData vs

end

/-! ## Reading -/

/-- What `read` reads between gaps, up to a closing character. -/
def enclosed? (read : List Char → Option (Value × List Char)) (closing : Char)
    (cs : List Char) : Option (Value × List Char) := do
  let (v, rest) ← read (skipGap cs)
  match skipGap rest with
  | c :: rest => if c = closing then some (v, rest) else none
  | [] => none

/-- The digits at the front. -/
def number? (cs : List Char) : Option (Nat × List Char) :=
  let (digits, rest) := cs.span Char.isDigit
  (String.ofList digits).toNat?.map (·, rest)

/-- A tag and a closing bracket at the front. -/
def tag? (cs : List Char) : Option (Tag × List Char) :=
  match cs.span isWordChar with
  | (_, ']' :: rest) => some (.exception, rest)
  | (_, '#' :: rest) => do
    match ← number? rest with
    | (id, ']' :: rest) => some (.scope id, rest)
    | _ => none
  | _ => none

/-- The value that is written as one word. -/
def atom? (word : String) : Option Value :=
  if word = "true" then some (bool true)
  else if word = "false" then some (bool false)
  else word.toInt?.map fun i => int (Int64.ofInt i)

mutual

/-- A value at the front, with at most so many parts, and what follows it. -/
def read? : Nat → List Char → Option (Value × List Char)
  | 0, _ => none
  | n + 1, cs =>
    -- What follows the word at the front, if there is one, says of which kind the value is.
    match cs.span isWordChar with
    | ([], '(' :: ')' :: rest) => some (unit, rest)
    | ([], '"' :: rest) =>
      (unquote? n rest).map fun (text, rest) => (str (String.ofList text), rest)
    | ([], '[' :: rest) => (items? n (skipGap rest)).map fun (items, rest) => (list items, rest)
    | (word, '(' :: rest) =>
      (enclosed? (read? n) ')' rest).map fun (arg, rest) => (ctor (String.ofList word) arg, rest)
    | (_, '[' :: rest) => do
      match ← tag? rest with
      | (tag, '(' :: rest) =>
        (enclosed? (read? n) ')' rest).map fun (payload, rest) => (signal payload tag, rest)
      | _ => none
    | (word, '#' :: rest) => do
      match ← number? rest with
      | (id, '\x7b' :: rest) =>
        (enclosed? (read? n) '\x7d' rest).map fun (inner, rest) =>
          (carrier ⟨id, String.ofList word⟩ inner, rest)
      | _ => none
    | (word, rest) => (atom? (String.ofList word)).map (·, rest)

/-- The rest of a list at the front, with at most so many parts, and what follows it. -/
def items? : Nat → List Char → Option (List Value × List Char)
  | 0, _ => none
  | _ + 1, ']' :: rest => some ([], rest)
  | n + 1, cs => do
    let (v, rest) ← read? n cs
    match skipGap rest with
    | ',' :: rest => (items? n (skipGap rest)).map fun (vs, rest) => (v :: vs, rest)
    | ']' :: rest => some ([v], rest)
    | _ => none

end

/-- The text does not go on with a word, or with what may follow a word of a value. -/
def Ends (rest : List Char) : Prop :=
  ∀ c ∈ rest.head?, c ∈ [')', ']', '\x7d', ',', ' ', '\n']

/-- The value is read from the text, whatever follows, with enough parts to spend. -/
structure ReadFrom (v : Value) (s : List Char) : Prop where
  head : ∃ c t, s = c :: t ∧ isGapChar c = false ∧ c ≠ ']'
  read : ∃ m, ∀ n rest, m ≤ n → Ends rest → read? n (s ++ rest) = some (v, rest)

theorem ends_cons {c : Char} (hc : c ∈ [')', ']', '\x7d', ',']) (rest : List Char) :
    Ends (c :: rest) := by
  intro d hd
  obtain rfl := Option.some.inj hd
  exact List.mem_append_left [' ', '\n'] hc

theorem ends_gap {gap : List Char} (hgap : IsGap gap) {c : Char}
    (hc : c ∈ [')', ']', '\x7d', ',']) (rest : List Char) : Ends (gap ++ c :: rest) := by
  cases gap with
  | nil => exact ends_cons hc rest
  | cons b gap =>
    intro d hd
    obtain rfl := Option.some.inj hd
    have hb := hgap b List.mem_cons_self
    simp only [isGapChar, Bool.or_eq_true, beq_iff_eq] at hb
    rcases hb with rfl | rfl <;> decide

/-- A value is read between gaps. -/
theorem ReadFrom.enclosed {v : Value} {s g g' : List Char} (h : ReadFrom v s) (hg : IsGap g)
    (hg' : IsGap g') (closing : Char) (hclosing : closing ∈ [')', ']', '\x7d', ',']) :
    ∃ m, ∀ n rest, m ≤ n →
      enclosed? (read? n) closing (g ++ (s ++ (g' ++ closing :: rest))) = some (v, rest) := by
  obtain ⟨⟨c, t, rfl, hc, -⟩, m, hread⟩ := h
  have hgap : isGapChar closing = false := by
    simp only [List.mem_cons, List.not_mem_nil, or_false] at hclosing
    rcases hclosing with rfl | rfl | rfl | rfl <;> rfl
  refine ⟨m, fun n rest hn => ?_⟩
  have hv := hread n _ hn (ends_gap hg' hclosing rest)
  rw [enclosed?, List.cons_append, skipGap_append hg hc, ← List.cons_append, hv]
  simp [skipGap_append hg' hgap]

/-! ## Words -/

theorem exists_cons_of_isName {name : String} (h : isName name = true) :
    ∃ c w, name.toList = c :: w ∧ (c :: w).all isWordChar = true := by
  simp only [isName, Bool.and_eq_true, Bool.not_eq_true', List.isEmpty_eq_false_iff] at h
  obtain ⟨c, w, hname⟩ := List.exists_cons_of_ne_nil h.1
  exact ⟨c, w, hname, hname ▸ h.2⟩

/-- A word ends where no character of words follows. -/
theorem not_isWordChar_head {c : Char} (h : isWordChar c = false) (cs : List Char) :
    ∀ d ∈ (c :: cs).head?, isWordChar d = false := fun _ hd => Option.some.inj hd ▸ h

theorem span_cons (c : Char) (cs : List Char) (h : isWordChar c = false) :
    (c :: cs).span isWordChar = ([], c :: cs) :=
  span_append (List.forall_mem_nil _) (c :: cs) (not_isWordChar_head h cs)

/-- A text that begins with a word is read as that word asks for. -/
theorem ReadFrom.of_word {v : Value} {c : Char} {w s : List Char}
    (hw : (c :: w).all isWordChar = true)
    (h : ∃ m, ∀ n rest, m ≤ n → Ends rest →
      (∀ d ∈ (s ++ rest).head?, isWordChar d = false) ∧
        ((c :: w ++ (s ++ rest)).span isWordChar = (c :: w, s ++ rest) →
          read? (n + 1) (c :: w ++ (s ++ rest)) = some (v, rest))) :
    ReadFrom v (c :: w ++ s) := by
  rw [List.all_eq_true] at hw
  constructor
  case head =>
    have hc := hw c List.mem_cons_self
    refine ⟨c, w ++ s, rfl, ?_, ?_⟩
    · cases hgap : isGapChar c with
      | false => rfl
      | true =>
        simp only [isGapChar, Bool.or_eq_true, beq_iff_eq] at hgap
        rcases hgap with rfl | rfl <;> exact absurd hc (by decide)
    · rintro rfl
      exact absurd hc (by decide)
  case read =>
    obtain ⟨m, hm⟩ := h
    refine ⟨m + 1, fun n rest hn hrest => ?_⟩
    obtain ⟨n, rfl⟩ : ∃ k, n = k + 1 := ⟨n - 1, by omega⟩
    obtain ⟨hhead, hread⟩ := hm n rest (by omega) hrest
    -- What follows the word does not continue it, so the front is the word.
    rw [List.append_assoc]
    exact hread (span_append hw _ hhead)

theorem readFrom_atom {v : Value} {c : Char} {w : List Char}
    (hw : (c :: w).all isWordChar = true)
    (hatom : atom? (String.ofList (c :: w)) = some v) : ReadFrom v (c :: w) := by
  rw [← List.append_nil (c :: w)]
  refine .of_word hw ⟨0, fun n rest _ hrest => ?_⟩
  have hatom : (atom? (String.ofList (c :: w))).map (·, rest) = some (v, rest) := by rw [hatom]; rfl
  -- Nothing that may follow a value makes another kind of value of the word.
  cases rest with
  | nil => exact ⟨nofun, fun hspan => by rw [read?, hspan]; exact hatom⟩
  | cons d rest =>
    have hd := hrest d rfl
    simp only [List.mem_cons, List.not_mem_nil, or_false] at hd
    rcases hd with rfl | rfl | rfl | rfl | rfl | rfl
    all_goals exact ⟨not_isWordChar_head rfl _, fun hspan => by rw [read?, hspan]; exact hatom⟩

theorem readFrom_ctor {name : String} {v : Value} {s g g' : List Char} (hname : isName name = true)
    (h : ReadFrom v s) (hg : IsGap g) (hg' : IsGap g') :
    ReadFrom (ctor name v) (name.toList ++ '(' :: (g ++ (s ++ (g' ++ [')'])))) := by
  obtain ⟨c, w, hcons, hw⟩ := exists_cons_of_isName hname
  obtain ⟨m, hm⟩ := h.enclosed hg hg' ')' (by decide)
  have hstring : String.ofList (c :: w) = name := hcons ▸ String.ofList_toList
  rw [hcons]
  refine .of_word hw ⟨m, fun n rest hn _ => ⟨not_isWordChar_head rfl _, fun hspan => ?_⟩⟩
  rw [read?, hspan]
  simp only [List.cons_append, List.append_assoc, List.nil_append, hm n rest hn, hstring]
  rfl

/-! ## Numbers and tags -/

theorem isDigit_of_mem_repr {k : Nat} {c : Char} (hc : c ∈ k.repr.toList) : c.isDigit = true :=
  Nat.isDigit_of_mem_toDigits (by decide) (by decide) (Nat.toList_repr ▸ hc)

theorem number?_toString (k : Nat) (rest : List Char)
    (hrest : ∀ c ∈ rest.head?, c.isDigit = false) :
    number? ((toString k).toList ++ rest) = some (k, rest) := by
  have hdigits : ∀ c ∈ (toString k).toList, c.isDigit = true := fun c => isDigit_of_mem_repr
  have hnumber : (toString k).toNat? = some k := Nat.toNat?_repr k
  rw [number?, span_append hdigits rest hrest]
  simp only [String.ofList_toList, hnumber, Option.map_some]

theorem tag?_text (t : Tag) (rest : List Char) :
    tag? (t.text.toList ++ ']' :: rest) = some (t, rest) := by
  cases t with
  | exception =>
    have hword : "exception".toList.all isWordChar = true := rfl
    have hspan := span_append (List.all_eq_true.mp hword) (']' :: rest) (not_isWordChar_head rfl _)
    rw [Tag.text, tag?, hspan]
    rfl
  | scope id =>
    have hword : "scope".toList.all isWordChar = true := rfl
    have hspan := span_append (List.all_eq_true.mp hword)
      ('#' :: ((toString id).toList ++ ']' :: rest)) (not_isWordChar_head rfl _)
    have hnumber := number?_toString id (']' :: rest) fun _ hc => Option.some.inj hc ▸ rfl
    have htext : (Tag.scope id).text.toList ++ ']' :: rest =
        "scope".toList ++ '#' :: ((toString id).toList ++ ']' :: rest) := by
      simp [Tag.text]
    rw [htext, tag?, hspan]
    simp only [hnumber, Option.bind_eq_bind, Option.bind_some]

theorem readFrom_signal {t : Tag} {v : Value} {s g g' : List Char} (h : ReadFrom v s)
    (hg : IsGap g) (hg' : IsGap g') :
    ReadFrom (signal v t)
      (("unwind[" ++ t.text ++ "]").toList ++ '(' :: (g ++ (s ++ (g' ++ [')'])))) := by
  obtain ⟨m, hm⟩ := h.enclosed hg hg' ')' (by decide)
  have htext : ("unwind[" ++ t.text ++ "]").toList ++ '(' :: (g ++ (s ++ (g' ++ [')']))) =
      'u' :: ['n', 'w', 'i', 'n', 'd'] ++
        '[' :: (t.text.toList ++ ']' :: '(' :: (g ++ (s ++ (g' ++ [')'])))) := by
    simp
  rw [htext]
  refine .of_word rfl ⟨m, fun n rest hn _ => ⟨not_isWordChar_head rfl _, fun hspan => ?_⟩⟩
  have htag := tag?_text t ('(' :: (g ++ (s ++ (g' ++ ')' :: rest))))
  rw [read?, hspan]
  simp only [List.cons_append, List.append_assoc, List.nil_append, htag, Option.bind_eq_bind,
    Option.bind_some, hm n rest hn, Option.map_some]

theorem readFrom_carrier {b : Brand} {v : Value} {s g g' : List Char} (hname : isName b.name = true)
    (h : ReadFrom v s) (hg : IsGap g) (hg' : IsGap g') :
    ReadFrom (carrier b v) (b.text.toList ++ '\x7b' :: (g ++ (s ++ (g' ++ ['\x7d'])))) := by
  obtain ⟨c, w, hcons, hw⟩ := exists_cons_of_isName hname
  obtain ⟨m, hm⟩ := h.enclosed hg hg' '\x7d' (by decide)
  have hstring : String.ofList (c :: w) = b.name := hcons ▸ String.ofList_toList
  have htext : b.text.toList ++ '\x7b' :: (g ++ (s ++ (g' ++ ['\x7d']))) =
      c :: w ++ '#' :: ((toString b.id).toList ++ '\x7b' :: (g ++ (s ++ (g' ++ ['\x7d'])))) := by
    simp [Brand.text, hcons]
  rw [htext]
  refine .of_word hw ⟨m, fun n rest hn _ => ⟨not_isWordChar_head rfl _, fun hspan => ?_⟩⟩
  have hnumber := number?_toString b.id ('\x7b' :: (g ++ (s ++ (g' ++ '\x7d' :: rest))))
    fun _ hc => Option.some.inj hc ▸ rfl
  rw [read?, hspan]
  simp only [List.cons_append, List.append_assoc, List.nil_append, hnumber, Option.bind_eq_bind,
    Option.bind_some, hm n rest hn, Option.map_some, hstring]

/-! ## Words and texts -/

theorem readFrom_unit : ReadFrom unit "()".toList where
  head := ⟨'(', [')'], rfl, rfl, by decide⟩
  read := ⟨1, fun n rest hn _ => by
    obtain ⟨n, rfl⟩ : ∃ k, n = k + 1 := ⟨n - 1, by omega⟩
    rfl⟩

theorem readFrom_bool (b : Bool) : ReadFrom (bool b) (toString b).toList := by
  cases b with
  | true => exact readFrom_atom (c := 't') (w := ['r', 'u', 'e']) rfl rfl
  | false => exact readFrom_atom (c := 'f') (w := ['a', 'l', 's', 'e']) rfl rfl

/-- A number is written with digits, after a sign if it is negative. -/
theorem repr_chars (i : Int) :
    i.repr.toList ≠ [] ∧ ∀ c ∈ i.repr.toList, c = '-' ∨ c.isDigit = true := by
  rw [Int.repr_eq_if]
  split_ifs
  · exact ⟨by simp [Nat.toList_repr], fun c hc => .inr (isDigit_of_mem_repr hc)⟩
  · rw [String.toList_append]
    refine ⟨by simp, fun c hc => ?_⟩
    rcases List.mem_append.mp hc with hc | hc
    · exact .inl (List.mem_singleton.mp hc)
    · exact .inr (isDigit_of_mem_repr hc)

theorem isWordChar_of_number {c : Char} (hc : c = '-' ∨ c.isDigit = true) :
    isWordChar c = true := by
  by_contra h
  simp only [isWordChar, decide_eq_true_eq, not_not, List.mem_cons, List.not_mem_nil, or_false] at h
  rcases h with rfl | rfl | rfl | rfl | rfl | rfl | rfl | rfl | rfl | rfl | rfl
  all_goals exact absurd hc (by decide)

theorem readFrom_int (i : Int64) : ReadFrom (int i) (toString i).toList := by
  have hrepr : toString i = i.toInt.repr := rfl
  obtain ⟨hne, hchars⟩ := repr_chars i.toInt
  -- There is a letter in the names of the booleans, and none in a number.
  have hword (word : String) (hmem : 'e' ∈ word.toList) : i.toInt.repr ≠ word := by
    rintro rfl
    exact absurd (hchars 'e' hmem) (by decide)
  have hatom : atom? i.toInt.repr = some (int i) := by
    rw [atom?, if_neg (hword "true" (by decide)),
      if_neg (hword "false" (by decide)), Int.toInt?_repr, Option.map_some,
      Int64.ofInt_toInt]
  obtain ⟨c, w, hcons⟩ := List.exists_cons_of_ne_nil hne
  rw [hrepr, hcons]
  refine readFrom_atom ?_ ?_
  · rw [← hcons, List.all_eq_true]
    exact fun d hd => isWordChar_of_number (hchars d hd)
  · rw [← hcons, String.ofList_toList]
    exact hatom

theorem readFrom_str (s : String) : ReadFrom (str s) (quoted s).toList where
  head := ⟨'"', _, String.toList_ofList, rfl, by decide⟩
  read := ⟨s.toList.length + 1, fun n rest hn _ => by
    obtain ⟨n, rfl⟩ : ∃ k, n = k + 1 := ⟨n - 1, by omega⟩
    have hspan := span_cons '"' (s.toList.flatMap escape ++ '"' :: rest) rfl
    have hunquote := unquote?_escaped (show s.toList.length ≤ n by omega) rest
    rw [quoted, String.toList_ofList, quotedChars, List.cons_append, List.append_assoc,
      List.singleton_append, read?, hspan]
    simp only [hunquote, Option.map_some, String.ofList_toList]⟩

/-! ## Lists -/

/-- The items are read between gaps, up to the bracket that closes their list. -/
def ItemsFrom (vs : List Value) (s : List Char) : Prop :=
  ∃ m, ∀ n g g' rest, m ≤ n → IsGap g → IsGap g' →
    items? n (skipGap (g ++ (s ++ (g' ++ ']' :: rest)))) = some (vs, rest)

theorem itemsFrom_nil : ItemsFrom [] [] := by
  refine ⟨1, fun n g g' rest hn hg hg' => ?_⟩
  obtain ⟨n, rfl⟩ : ∃ k, n = k + 1 := ⟨n - 1, by omega⟩
  have hgap : IsGap (g ++ g') := fun c hc => (List.mem_append.mp hc).elim (hg c) (hg' c)
  rw [List.nil_append, ← List.append_assoc, skipGap_append hgap rfl, items?]

/-- What is read of items after the first of them. -/
theorem items?_of_readFrom {v : Value} {s : List Char} (h : ReadFrom v s) :
    ∃ m, ∀ n g rest, m ≤ n → IsGap g → Ends rest →
      items? (n + 1) (skipGap (g ++ (s ++ rest))) =
        match skipGap rest with
        | ',' :: rest => (items? n (skipGap rest)).map fun (vs, rest) => (v :: vs, rest)
        | ']' :: rest => some ([v], rest)
        | _ => none := by
  obtain ⟨⟨c, t, rfl, hc, hclosing⟩, m, hread⟩ := h
  refine ⟨m, fun n g rest hn hg hrest => ?_⟩
  rw [List.cons_append, skipGap_append hg hc, items?, ← List.cons_append, hread n rest hn hrest]
  · rfl
  · exact fun _ h => hclosing (List.cons.inj h).1

theorem itemsFrom_singleton {v : Value} {s : List Char} (h : ReadFrom v s) : ItemsFrom [v] s := by
  obtain ⟨m, hitems⟩ := items?_of_readFrom h
  refine ⟨m + 1, fun n g g' rest hn hg hg' => ?_⟩
  obtain ⟨n, rfl⟩ : ∃ k, n = k + 1 := ⟨n - 1, by omega⟩
  rw [hitems n g _ (by omega) hg (ends_gap hg' (by decide) rest), skipGap_append hg' rfl]
  rfl

theorem itemsFrom_cons {v : Value} {vs : List Value} {s g t : List Char} (h : ReadFrom v s)
    (hg : IsGap g) (ht : ItemsFrom vs t) : ItemsFrom (v :: vs) (s ++ ',' :: (g ++ t)) := by
  obtain ⟨m, hitems⟩ := items?_of_readFrom h
  obtain ⟨k, hrest⟩ := ht
  refine ⟨max m k + 1, fun n g₁ g' rest hn hg₁ hg' => ?_⟩
  obtain ⟨n, rfl⟩ : ∃ k, n = k + 1 := ⟨n - 1, by omega⟩
  rw [List.append_assoc, List.cons_append, List.append_assoc,
    hitems n g₁ _ (by omega) hg₁ (ends_cons (by decide) _), skipGap_cons rfl]
  simp only [hrest n g g' rest (by omega) hg hg', Option.map_some]

theorem readFrom_list {vs : List Value} {s g g' : List Char} (h : ItemsFrom vs s) (hg : IsGap g)
    (hg' : IsGap g') : ReadFrom (list vs) ('[' :: (g ++ (s ++ (g' ++ [']'])))) where
  head := ⟨'[', _, rfl, rfl, by decide⟩
  read := by
    obtain ⟨m, hm⟩ := h
    refine ⟨m + 1, fun n rest hn _ => ?_⟩
    obtain ⟨n, rfl⟩ : ∃ k, n = k + 1 := ⟨n - 1, by omega⟩
    have hitems := hm n g g' rest (by omega) hg hg'
    have hspan := span_cons '[' (g ++ (s ++ (g' ++ ']' :: rest))) rfl
    rw [List.cons_append, List.append_assoc, List.append_assoc, List.append_assoc,
      List.singleton_append, read?, hspan]
    simp only [hitems, Option.map_some]

/-! ## Every layout -/

/-- What is between delimiters after a word is printed with gaps around it. -/
theorem lays_enclosed {name opening closing : String} {d : Doc} {s : List Char}
    (h : (Doc.text name ++ Doc.delimited opening [d] closing).Lays s) :
    ∃ g t g', IsGap g ∧ d.Lays t ∧ IsGap g' ∧
      s = name.toList ++ (opening.toList ++ (g ++ (t ++ (g' ++ closing.toList)))) := by
  obtain ⟨u, v, hname, hd, rfl⟩ := h.of_append
  obtain rfl := hname.of_text
  obtain ⟨g, t, g', hg, ht, hg', rfl⟩ := hd.delimited
  exact ⟨g, t, g', hg, ht, hg', rfl⟩

section

variable (adopted : BrandId → Bool)

mutual

/-- Values are read from every layout of their display form. -/
theorem readFrom_lays : (v : Value) → v.isData = true → ∀ {s : List Char},
    (v.doc adopted).Lays s → ReadFrom v s
  | unit, _, _, h => h.of_text ▸ readFrom_unit
  | bool b, _, _, h => h.of_text ▸ readFrom_bool b
  | int i, _, _, h => h.of_text ▸ readFrom_int i
  | str s, _, _, h => h.of_text ▸ readFrom_str s
  | list items, hdata, _, h => by
    obtain ⟨g, t, g', hg, ht, hg', rfl⟩ := Doc.Lays.delimited h
    exact readFrom_list (itemsFrom_lays items hdata ht) hg hg'
  | ctor name arg, hdata, _, h => by
    obtain ⟨hname, harg⟩ := Bool.and_eq_true_iff.mp hdata
    obtain ⟨g, t, g', hg, ht, hg', rfl⟩ := lays_enclosed h
    exact readFrom_ctor hname (readFrom_lays arg harg ht) hg hg'
  | signal payload tag, hdata, _, h => by
    obtain ⟨g, t, g', hg, ht, hg', rfl⟩ := lays_enclosed h
    exact readFrom_signal (readFrom_lays payload hdata ht) hg hg'
  | carrier brand inner, hdata, _, h => by
    obtain ⟨hname, hinner⟩ := Bool.and_eq_true_iff.mp hdata
    obtain ⟨g, t, g', hg, ht, hg', rfl⟩ := lays_enclosed h
    exact readFrom_carrier hname (readFrom_lays inner hinner ht) hg hg'

theorem itemsFrom_lays : (vs : List Value) → areData vs = true → ∀ {s : List Char},
    (Doc.commaSeparated (docAll adopted vs)).Lays s → ItemsFrom vs s
  | [], _, _, h => h.of_text ▸ itemsFrom_nil
  | [v], hdata, _, h => itemsFrom_singleton (readFrom_lays v (Bool.and_eq_true_iff.mp hdata).1 h)
  | v :: w :: vs, hdata, _, h => by
    obtain ⟨hv, hvs⟩ := Bool.and_eq_true_iff.mp hdata
    obtain ⟨t, g, u, ht, hg, hu, rfl⟩ := Doc.Lays.commaSeparated_cons h
    exact itemsFrom_cons (readFrom_lays v hv ht) hg (itemsFrom_lays (w :: vs) hvs hu)

end

end

/-- What is read from one text is one value. -/
theorem ReadFrom.unique {v w : Value} {s : List Char} (hv : ReadFrom v s) (hw : ReadFrom w s) :
    v = w := by
  obtain ⟨-, m, hm⟩ := hv
  obtain ⟨-, k, hk⟩ := hw
  have hsame := (hm (max m k) [] (by omega) nofun).symm.trans (hk (max m k) [] (by omega) nofun)
  exact (Prod.mk.inj (Option.some.inj hsame)).1

/-- Values with the same text are equal, whichever brands were adopted: they are where the texts
are those of the page, and where each is laid out with any choice of line breaks and columns. -/
theorem display_identifies {adopted adopted' : BrandId → Bool} {v w : Value}
    (hv : v.isData = true) (hw : w.isData = true) :
    (v.display adopted = w.display adopted' → v = w) ∧
      ∀ s, (v.doc adopted).Lays s → (w.doc adopted').Lays s → v = w := by
  have hlays (s : List Char) (hs : (v.doc adopted).Lays s) (ht : (w.doc adopted').Lays s) :
      v = w := (readFrom_lays adopted v hv hs).unique (readFrom_lays adopted' w hw ht)
  refine ⟨fun hsame => ?_, hlays⟩
  have ht : (w.doc adopted').Lays (v.display adopted).toList :=
    hsame ▸ Doc.lays_render pageWidth (w.doc adopted')
  exact hlays _ (Doc.lays_render pageWidth (v.doc adopted)) ht

/-- A list of a quoted text, a signal and a carrier has no text in common with the list that only
differs in a number inside the carrier. -/
theorem display_identifies_nested :
    let v (n : Int64) : Value := list [str "a\"]\n", signal (bool true) (.scope 2),
      carrier ⟨3, "state"⟩ (ctor "Some" (int n))]
    (v 1).isData = true ∧ (v 2).isData = true ∧
      (v 1).display (fun _ => true) ≠ (v 2).display (fun _ => false) ∧
      (v 1).display (fun _ => true) = (v 1).display (fun _ => false) := by
  intro v
  have hdata (n : Int64) : (v n).isData = true := by
    simp [v, isData, areData, isName, isWordChar]
  refine ⟨hdata 1, hdata 2, fun hsame => ?_, rfl⟩
  have heq : v 1 = v 2 := (display_identifies (hdata 1) (hdata 2)).1 hsame
  simp [v] at heq

end Value

end EffectLayers
