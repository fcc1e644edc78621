import EffectLayers.Toml.Document
import Mathlib.Data.List.Forall2
import Mathlib.Data.List.Infix

/-!
# The grammar of TOML documents

What a document of truth values and texts denotes by the grammar, which a reader follows, and the
forms in which a writer may put such a document. Every document of a writer is one of the grammar.
Of the grammar, headers, dotted keys, numbers, dates and tables are left out, which no writer of
truth values and texts uses, and so are line ends within texts that are removed or not a single
newline, which readers may change.

## Main definitions

* `Toml.Grammar.Text`, `Toml.Grammar.Document`: what texts and documents denote by the grammar.
* `Toml.Form`, `Toml.Lines`: the forms of a text, and the lines of a document.
* `Toml.Writer.Lawful`, `Toml.Reader.Lawful`: what is relied on of writers and readers.

## Main statements

* `Toml.Form.text`: each form of a text denotes it.
* `Toml.Lines.document`: lines denote their entries.
-/

namespace EffectLayers.Toml

/-- The quotes that open and close a form on several lines. -/
def fence (quote : Char) : List Char := [quote, quote, quote]

/-- A key that needs no quotes. -/
def IsBare (key : String) : Prop := key.toList ≠ [] ∧ key.toList.all isBareKey = true

instance (key : String) : Decidable (IsBare key) := inferInstanceAs (Decidable (_ ∧ _))

/-! ## The grammar -/

namespace Grammar

/-- A line end. -/
inductive LineEnd : List Char → Prop where
  | newline : LineEnd ['\n']
  | returned : LineEnd ['\r', '\n']

def Blanks (w : List Char) : Prop := ∀ c ∈ w, isBlank c = true

/-- A comment, or nothing. -/
inductive Comment : List Char → Prop where
  | absent : Comment []
  | present {w : List Char} (h : ∀ c ∈ w, isComment c = true) : Comment ('#' :: w)

/-- The letters of escapes, with what they stand for. -/
def letters : List (Char × Char) :=
  [('b', '\x08'), ('t', '\t'), ('n', '\n'), ('f', '\x0c'), ('r', '\r'), ('"', '"'), ('\\', '\\')]

/-- What follows the backslash in an escape of a character. -/
inductive Escaped (c : Char) : List Char → Prop where
  | letter {l : Char} (h : (l, c) ∈ letters) : Escaped c [l]
  | short {digits : List Char} (hlength : digits.length = 4) (h : codePoint? digits = some c) :
      Escaped c ('u' :: digits)
  | long {digits : List Char} (hlength : digits.length = 8) (h : codePoint? digits = some c) :
      Escaped c ('U' :: digits)

/-- A character of a basic text. -/
inductive BasicChar (c : Char) : List Char → Prop where
  | unescaped (h : isComment c = true) (hquote : c ≠ '"') (hslash : c ≠ '\\') : BasicChar c [c]
  | escaped {w : List Char} (h : Escaped c w) : BasicChar c ('\\' :: w)

/-- A character of a literal text. -/
inductive LiteralChar (c : Char) : List Char → Prop where
  | plain (h : isComment c = true) (hquote : c ≠ '\'') : LiteralChar c [c]

variable (R : Char → List Char → Prop)

/-- Characters one after another. -/
inductive Chars : List Char → List Char → Prop where
  | nil : Chars [] []
  | cons {c : Char} {cs w ws : List Char} (h : R c w) (hs : Chars cs ws) :
      Chars (c :: cs) (w ++ ws)

/-- What a text on several lines holds apart from quotes. -/
inductive Content (c : Char) : List Char → Prop where
  | char {w : List Char} (h : R c w) : Content c w
  | newline (h : c = '\n') : Content c ['\n']

/-- What stands between the quotes of a text on several lines: contents, with up to two quotes
before each of them and at the end. -/
inductive Body (quote : Char) : List Char → List Char → Prop where
  | last {n : Nat} (hn : n ≤ 2) : Body quote (List.replicate n quote) (List.replicate n quote)
  | content {n : Nat} {c : Char} {cs w ws : List Char} (hn : n ≤ 2) (h : Content R c w)
      (hs : Body quote cs ws) :
      Body quote (List.replicate n quote ++ c :: cs) (List.replicate n quote ++ (w ++ ws))

/-- What may stand between the opening quotes and what the text begins with. -/
inductive Opening (w : List Char) : List Char → Prop where
  | trimmed {o : List Char} (h : LineEnd o) : Opening w o
  | direct (h : w.head? ≠ some '\n') : Opening w []

/-- What a written text denotes. -/
inductive Text : List Char → List Char → Prop where
  | basic {cs w : List Char} (h : Chars BasicChar cs w) : Text cs ('"' :: (w ++ ['"']))
  | literal {cs w : List Char} (h : Chars LiteralChar cs w) : Text cs ('\'' :: (w ++ ['\'']))
  | basicLines {cs o w : List Char} (ho : Opening w o) (h : Body BasicChar '"' cs w) :
      Text cs (fence '"' ++ (o ++ (w ++ fence '"')))
  | literalLines {cs o w : List Char} (ho : Opening w o) (h : Body LiteralChar '\'' cs w) :
      Text cs (fence '\'' ++ (o ++ (w ++ fence '\'')))

inductive Datum : Scalar → List Char → Prop where
  | yes : Datum (.truth true) "true".toList
  | no : Datum (.truth false) "false".toList
  | text {s : String} {w : List Char} (h : Text s.toList w) : Datum (.text s) w

inductive Key : String → List Char → Prop where
  | bare {key : String} (h : IsBare key) : Key key key.toList
  | basic {key : String} {w : List Char} (h : Chars BasicChar key.toList w) :
      Key key ('"' :: (w ++ ['"']))
  | literal {key : String} {w : List Char} (h : Chars LiteralChar key.toList w) :
      Key key ('\'' :: (w ++ ['\'']))

/-- A line of a document without its end: it gives a value to a key, or nothing. -/
inductive Line : List (String × Scalar) → List Char → Prop where
  | blank {b r : List Char} (hb : Blanks b) (hr : Comment r) : Line [] (b ++ r)
  | entry {key : String} {value : Scalar} {b k b₁ b₂ v b₃ r : List Char} (hb : Blanks b)
      (hkey : Key key k) (hb₁ : Blanks b₁) (hb₂ : Blanks b₂) (hvalue : Datum value v)
      (hb₃ : Blanks b₃) (hr : Comment r) :
      Line [(key, value)] (b ++ (k ++ (b₁ ++ '=' :: (b₂ ++ (v ++ (b₃ ++ r))))))

/-- The entries that a document denotes, in their order. -/
inductive Document : List (String × Scalar) → List Char → Prop where
  | last {es : List (String × Scalar)} {w : List Char} (h : Line es w) : Document es w
  | line {es es' : List (String × Scalar)} {w e w' : List Char} (h : Line es w)
      (he : LineEnd e) (hs : Document es' w') : Document (es ++ es') (w ++ (e ++ w'))

end Grammar

/-! ## Written forms -/

/-- How a basic form writes a character: as it is, or as an escape. -/
inductive Written (lines : Bool) (c : Char) : List Char → Prop where
  | plain (hslash : c ≠ '\\') (hcontrol : isControl c = false)
      (hlines : c = '\n' ∨ c = '"' → lines = true) : Written lines c [c]
  | escape {w : List Char} (h : Grammar.Escaped c w) : Written lines c ('\\' :: w)

/-- The forms of a text. On one line neither newlines nor quotes of the form's own kind stand as
they are; on several lines newlines do, and so do two quotes in a row. -/
inductive Form : List Char → List Char → Prop where
  | basic {cs : List Char} {ws : List (List Char)} (h : List.Forall₂ (Written false) cs ws) :
      Form cs ('"' :: (ws.flatten ++ ['"']))
  | literal {cs : List Char} (h : ∀ c ∈ cs, isControl c = false ∧ c ≠ '\n' ∧ c ≠ '\'') :
      Form cs ('\'' :: (cs ++ ['\'']))
  | basicLines {cs o : List Char} {ws : List (List Char)}
      (h : List.Forall₂ (Written true) cs ws) (hquotes : ¬ List.replicate 3 ['"'] <:+: ws)
      (ho : Grammar.Opening ws.flatten o) :
      Form cs (fence '"' ++ (o ++ (ws.flatten ++ fence '"')))
  | literalLines {cs o : List Char} (h : ∀ c ∈ cs, isControl c = false)
      (hquotes : ¬ fence '\'' <:+: cs) (ho : Grammar.Opening cs o) :
      Form cs (fence '\'' ++ (o ++ (cs ++ fence '\'')))

/-- The forms of a value. -/
inductive ScalarForm : Scalar → List Char → Prop where
  | truth (b : Bool) : ScalarForm (.truth b) (toString b).toList
  | text {s : String} {w : List Char} (h : Form s.toList w) : ScalarForm (.text s) w

/-- A document of one line for each entry. -/
inductive Lines : List (String × Scalar) → List Char → Prop where
  | nil : Lines [] []
  | cons {key : String} {value : Scalar} {es : List (String × Scalar)} {w ws : List Char}
      (h : ScalarForm value w) (hs : Lines es ws) :
      Lines ((key, value) :: es) (key.toList ++ ([' ', '=', ' '] ++ (w ++ '\n' :: ws)))

/-! ## Writers and readers -/

/-- What is relied on of a writer: entries whose texts it can write, words among them, are
written, and whatever it writes are lines, each text in one of its forms. -/
structure Writer.Lawful (write? : Writer) (Can : String → Prop) : Prop where
  words : ∀ s, IsBare s → Can s
  writes : ∀ es, (∀ e ∈ es, IsBare e.1 ∧ ∀ s, e.2 = .text s → Can s) → ∃ s, write? es = some s
  lines : ∀ es s, (∀ e ∈ es, IsBare e.1) → write? es = some s → Lines es s.toList

/-- What is relied on of a reader: it reads what documents denote by the grammar, in whatever order,
if they give no key twice. -/
structure Reader.Lawful (read? : Reader) : Prop where
  reads : ∀ es s, Grammar.Document es s.toList → (es.map (·.1)).Nodup →
    ∃ entries, read? s = some entries ∧
      entries.Perm (es.map fun (key, value) => (key, .scalar value))

/-! ## Forms in the grammar -/

namespace Grammar

variable {R : Char → List Char → Prop} {quote : Char}

/-- Written characters that are contents, or quotes of which no three are in a row. -/
theorem body_of_forall₂ {cs : List Char} {ws : List (List Char)}
    (h : List.Forall₂ (fun c w => c = quote ∧ w = [quote] ∨ Content R c w) cs ws) {n : Nat}
    (hquotes : ¬ List.replicate 3 [quote] <:+: List.replicate n [quote] ++ ws) :
    Body R quote (List.replicate n quote ++ cs) (List.replicate n quote ++ ws.flatten) := by
  have hle {n : Nat} {ws : List (List Char)}
      (h : ¬ List.replicate 3 [quote] <:+: List.replicate n [quote] ++ ws) : n ≤ 2 := by
    by_contra hn
    obtain ⟨m, rfl⟩ : ∃ m, n = 3 + m := ⟨n - 3, by omega⟩
    rw [List.replicate_add, List.append_assoc] at h
    exact h (List.prefix_append _ _).isInfix
  induction h generalizing n with
  | nil => simpa using Body.last (hle hquotes)
  | @cons c w cs ws hc _ ih =>
    rcases hc with ⟨rfl, rfl⟩ | hc
    · -- One more quote before what comes next.
      have := @ih (n + 1) (by simpa [List.replicate_succ'] using hquotes)
      simpa [List.replicate_succ'] using this
    · have hs := @ih 0 fun h => hquotes <| h.trans <| by
        simpa using (List.suffix_append (List.replicate n [quote] ++ [w]) ws).isInfix
      simpa using Body.content (hle hquotes) hc (by simpa using hs)

theorem chars_of_forall₂ {cs : List Char} {ws : List (List Char)}
    (h : List.Forall₂ R cs ws) : Chars R cs ws.flatten := by
  induction h with
  | nil => exact .nil
  | cons hc _ ih => exact .cons hc ih

end Grammar

theorem isComment_of_isControl {c : Char} (hcontrol : isControl c = false) (hn : c ≠ '\n') :
    isComment c = true := by
  simp [isComment, hcontrol, hn]

/-- On one line a character is written as the grammar has it. -/
theorem Written.basicChar {c : Char} {w : List Char} (h : Written false c w) :
    Grammar.BasicChar c w := by
  cases h with
  | plain hslash hcontrol hlines =>
    have hn : c ≠ '\n' := fun h => nomatch hlines (.inl h)
    have hquote : c ≠ '"' := fun h => nomatch hlines (.inr h)
    exact .unescaped (isComment_of_isControl hcontrol hn) hquote hslash
  | escape h => exact .escaped h

/-- On several lines it may also be a newline or a quote. -/
theorem Written.content {c : Char} {w : List Char} (h : Written true c w) :
    c = '"' ∧ w = ['"'] ∨ Grammar.Content Grammar.BasicChar c w := by
  cases h with
  | plain hslash hcontrol =>
    by_cases hquote : c = '"'
    · exact .inl ⟨hquote, by rw [hquote]⟩
    by_cases hn : c = '\n'
    · subst hn
      exact .inr (.newline rfl)
    · exact .inr (.char (.unescaped (isComment_of_isControl hcontrol hn) hquote hslash))
  | escape h => exact .inr (.char (.escaped h))

theorem flatten_map_singleton {α : Type} (cs : List α) : (cs.map fun c => [c]).flatten = cs := by
  rw [← List.flatMap_def, List.flatMap_singleton']

/-- Quotes in a row among single characters are in a row in the text. -/
theorem fence_infix_of_map {quote : Char} {cs : List Char}
    (h : List.replicate 3 [quote] <:+: cs.map fun c => [c]) : fence quote <:+: cs := by
  obtain ⟨s, t, h⟩ := h
  refine ⟨s.flatten, t.flatten, ?_⟩
  rw [← flatten_map_singleton cs, ← h]
  simp [fence]

/-- Each form of a text denotes it. -/
theorem Form.text {cs w : List Char} (h : Form cs w) : Grammar.Text cs w := by
  cases h with
  | basic h => exact .basic (Grammar.chars_of_forall₂ (h.imp fun _ _ => Written.basicChar))
  | literal h =>
    have hchars : Grammar.Chars Grammar.LiteralChar cs (cs.map fun c => [c]).flatten := by
      refine Grammar.chars_of_forall₂ (List.forall₂_map_right_iff.mpr ?_)
      refine List.forall₂_same.mpr fun c hc => ?_
      obtain ⟨hcontrol, hn, hquote⟩ := h c hc
      exact .plain (isComment_of_isControl hcontrol hn) hquote
    rw [flatten_map_singleton] at hchars
    exact .literal hchars
  | basicLines h hquotes ho =>
    have hbody := Grammar.body_of_forall₂ (h.imp fun _ _ => Written.content) (n := 0) hquotes
    exact .basicLines ho hbody
  | literalLines h hquotes ho =>
    have hchars : List.Forall₂ (fun c w => c = '\'' ∧ w = ['\''] ∨
        Grammar.Content Grammar.LiteralChar c w) cs (cs.map fun c => [c]) := by
      refine List.forall₂_map_right_iff.mpr (List.forall₂_same.mpr fun c hc => ?_)
      by_cases hquote : c = '\''
      · exact .inl ⟨hquote, by rw [hquote]⟩
      by_cases hn : c = '\n'
      · subst hn
        exact .inr (.newline rfl)
      · exact .inr (.char (.plain (isComment_of_isControl (h c hc) hn) hquote))
    have hbody := Grammar.body_of_forall₂ hchars (n := 0) fun h => hquotes (fence_infix_of_map h)
    rw [flatten_map_singleton] at hbody
    exact .literalLines ho hbody

theorem ScalarForm.datum {s : Scalar} {w : List Char} (h : ScalarForm s w) :
    Grammar.Datum s w := by
  cases h with
  | truth b =>
    cases b
    · exact .no
    · exact .yes
  | text h => exact .text h.text

/-- Lines denote their entries. -/
theorem Lines.document {es : List (String × Scalar)} {w : List Char} (h : Lines es w)
    (hkeys : ∀ e ∈ es, IsBare e.1) : Grammar.Document es w := by
  have hblank : Grammar.Blanks [' '] := by simp [Grammar.Blanks, isBlank]
  have hempty : Grammar.Blanks [] := List.forall_mem_nil _
  induction h with
  | nil => exact .last (.blank hempty .absent)
  | cons hvalue _ ih =>
    have hkey := hkeys _ List.mem_cons_self
    have hline := Grammar.Line.entry hempty (.bare hkey) hblank hblank hvalue.datum hempty .absent
    have hs := ih fun e he => hkeys e (List.mem_cons_of_mem _ he)
    simpa using Grammar.Document.line hline .newline hs

end EffectLayers.Toml
