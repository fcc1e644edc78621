import EffectLayers.Proofs.Toml.Grammar
import Mathlib.Data.List.TakeWhile
import Mathlib.Tactic.IntervalCases

/-!
# Texts are read by the grammar and written in its forms

What is read from a text of the grammar is what the text denotes, and what follows the text is
left. What is written for a text is one of its forms.

## Main statements

* `Toml.basicLine?_chars`, `Toml.literalLine?_chars`: texts on one line are read.
* `Toml.read_body`: so are texts on several lines, of either kind of quote.
* `Toml.readText?_text`: so is every text of the grammar.
* `Toml.form_writeText`: what is written for a text is one of its forms.
-/

namespace EffectLayers.Toml

open Grammar

/-! ## On one line -/

theorem isComment_iff {c : Char} : isComment c = true ↔ isControl c = false ∧ c ≠ '\n' := by
  simp [isComment]

/-- An escape is read, and begins with neither a blank nor a line end. -/
theorem escape?_escaped {c : Char} {w : List Char} (h : Escaped c w) (rest : List Char) :
    escape? (w ++ rest) = some (c, rest) := by
  cases h with
  | @letter l h =>
    simp only [letters, List.mem_cons, Prod.mk.injEq, List.not_mem_nil, or_false] at h
    rcases h with ⟨rfl, rfl⟩ | ⟨rfl, rfl⟩ | ⟨rfl, rfl⟩ | ⟨rfl, rfl⟩ | ⟨rfl, rfl⟩ | ⟨rfl, rfl⟩ |
      ⟨rfl, rfl⟩
    all_goals rfl
  | short hlength h =>
    simp [escape?, hexEscape?, List.take_left' hlength, List.drop_left' hlength, hlength, h]
  | long hlength h =>
    simp [escape?, hexEscape?, List.take_left' hlength, List.drop_left' hlength, hlength, h]

theorem exists_cons_of_escaped {c : Char} {w : List Char} (h : Escaped c w) :
    ∃ l v, w = l :: v ∧ l ∉ [' ', '\t', '\n', '\r'] := by
  cases h with
  | @letter l h =>
    refine ⟨l, [], rfl, fun hl => ?_⟩
    simp only [List.mem_cons, List.not_mem_nil, or_false] at hl
    rcases hl with rfl | rfl | rfl | rfl <;> simp [letters] at h
  | short => exact ⟨_, _, rfl, by decide⟩
  | long => exact ⟨_, _, rfl, by decide⟩

theorem basicLine?_basicChar {c : Char} {w : List Char} (h : BasicChar c w) (rest : List Char) :
    basicLine? (w ++ rest) = (basicLine? rest).map (consTo c) := by
  cases h with
  | unescaped h hquote hslash =>
    obtain ⟨hcontrol, hn⟩ := isComment_iff.mp h
    rw [List.singleton_append, basicLine?]
    · simp [hcontrol, hn]
    · exact hquote
    · exact hslash
  | escaped h =>
    have hread := escape?_escaped h rest
    rw [List.cons_append, basicLine?]
    split
    · rename_i h
      obtain ⟨rfl, rfl⟩ := Prod.mk.inj (Option.some.inj (h.symm.trans hread))
      rfl
    · rename_i h
      cases h.symm.trans hread

/-- A basic text on one line is read. -/
theorem basicLine?_chars {cs w : List Char} (h : Chars BasicChar cs w) (rest : List Char) :
    basicLine? (w ++ '"' :: rest) = some (cs, rest) := by
  induction h with
  | nil =>
    change basicLine? ('"' :: rest) = _
    rw [basicLine?]
  | cons hc _ ih =>
    rw [List.append_assoc, basicLine?_basicChar hc, ih]
    rfl

/-- A literal text on one line is read. -/
theorem literalLine?_chars {cs w : List Char} (h : Chars LiteralChar cs w) (rest : List Char) :
    literalLine? (w ++ '\'' :: rest) = some (cs, rest) := by
  induction h with
  | nil => rfl
  | cons hc _ ih =>
    obtain ⟨hplain, hquote⟩ := hc
    obtain ⟨hcontrol, hn⟩ := isComment_iff.mp hplain
    rw [List.append_assoc, List.singleton_append, literalLine?, if_neg (by simp [hcontrol, hn]), ih]
    · rfl
    · exact hquote

/-! ## On several lines -/

theorem takeWhile_quotes (quote : Char) (n : Nat) {rest : List Char}
    (hrest : rest.head? ≠ some quote) :
    (List.replicate n quote ++ rest).takeWhile (· == quote) = List.replicate n quote := by
  have hstop : rest.takeWhile (· == quote) = [] := by
    cases rest with
    | nil => rfl
    | cons c rest => exact List.takeWhile_cons_of_neg (by simpa using hrest)
  rw [List.takeWhile_append_of_pos fun c hc => by simpa using List.eq_of_mem_replicate hc, hstop,
    List.append_nil]

/-- Three quotes close a text, and up to two more before them belong to it. -/
theorem closing?_fence {quote : Char} {n : Nat} (hn : n ≤ 2) {rest : List Char}
    (hrest : rest.head? ≠ some quote) :
    closing? quote (List.replicate n quote ++ (fence quote ++ rest)) =
      some (List.replicate n quote, rest) := by
  have hquotes : List.replicate n quote ++ (fence quote ++ rest) =
      List.replicate (n + 3) quote ++ rest := by
    rw [← List.append_assoc, List.replicate_add]
    rfl
  have hown : min (n + 3 - 3) 2 = n := by omega
  have hlt : ¬ n + 3 < 3 := by omega
  rw [hquotes, closing?, takeWhile_quotes quote _ hrest, List.length_replicate, if_neg hlt, hown]
  exact congrArg (fun cs => some (_, cs)) (List.drop_left' List.length_replicate)

/-- Fewer than three quotes close nothing. -/
theorem closing?_eq_none {quote : Char} {n : Nat} (hn : n ≤ 2) {rest : List Char}
    (hrest : rest.head? ≠ some quote) : closing? quote (List.replicate n quote ++ rest) = none := by
  rw [closing?, takeWhile_quotes quote n hrest]
  simp
  omega

/-- How texts on several lines with the quotes are read: up to what closes them, and before that
quotes and contents in turn. -/
structure ReadsLines (R : Char → List Char → Prop) (quote : Char)
    (read : List Char → Option (List Char × List Char)) : Prop where
  closing : ∀ cs found, closing? quote cs = some found → read cs = some found
  own : ∀ rest, closing? quote (quote :: rest) = none →
    read (quote :: rest) = (read rest).map (consTo quote)
  content : ∀ c w rest, Content R c w → closing? quote (w ++ rest) = none →
    read (w ++ rest) = (read rest).map (consTo c)
  head : ∀ c w, Content R c w → ∃ x v, w = x :: v ∧ x ≠ quote ∧ x ≠ '\r'

variable {R : Char → List Char → Prop} {quote : Char}
  {read : List Char → Option (List Char × List Char)}

/-- Up to two quotes that something else follows are read as they are. -/
theorem ReadsLines.quotes (hread : ReadsLines R quote read) {n : Nat} (hn : n ≤ 2)
    {cs rest rest' : List Char} (hrest : rest.head? ≠ some quote)
    (h : read rest = some (cs, rest')) :
    read (List.replicate n quote ++ rest) = some (List.replicate n quote ++ cs, rest') := by
  induction n with
  | zero => exact h
  | succ n ih =>
    have hclosing := closing?_eq_none hn hrest
    rw [List.replicate_succ, List.cons_append] at hclosing ⊢
    rw [hread.own _ hclosing, ih (by omega)]
    rfl

/-- A text on several lines is read. -/
theorem read_body (hread : ReadsLines R quote read) {cs w : List Char}
    (h : Grammar.Body R quote cs w) {rest : List Char} (hrest : rest.head? ≠ some quote) :
    read (w ++ (fence quote ++ rest)) = some (cs, rest) := by
  induction h with
  | last hn => exact hread.closing _ _ (closing?_fence hn hrest)
  | @content n c cs w ws hn hc _ ih =>
    obtain ⟨x, v, rfl, hx, -⟩ := hread.head c w hc
    have hhead : ((x :: v) ++ (ws ++ (fence quote ++ rest))).head? ≠ some quote := by
      simpa using hx
    have hclosing := closing?_eq_none (Nat.zero_le 2) hhead
    have hcontent := hread.content c _ _ hc hclosing
    rw [ih] at hcontent
    rw [List.append_assoc, List.append_assoc]
    exact hread.quotes hn hhead hcontent

theorem ne_return_of_isComment {c : Char} (h : isComment c = true) : c ≠ '\r' := by
  rintro rfl
  exact absurd h (by decide)

theorem isHeld_of_isComment {c : Char} (h : isComment c = true) (rest : List Char) :
    isHeld c rest = true := by
  simp [isHeld, (isComment_iff.mp h).1]

theorem readsLines_basic : ReadsLines BasicChar '"' basicLines? where
  closing cs found h := by
    cases cs with
    | nil => simp [closing?] at h
    | cons c cs => simp only [basicLines?, h]
  own rest h := by
    have hheld : isHeld '"' rest = true := isHeld_of_isComment (by decide) rest
    simp [basicLines?, h, hheld]
  content c w rest hc h := by
    rcases hc with ⟨⟨hplain, -, hslash⟩ | ⟨hescaped⟩⟩ | rfl
    · rw [List.singleton_append] at h ⊢
      simp [basicLines?, h, hslash, isHeld_of_isComment hplain]
    · -- The backslash is at no line end, which it would remove.
      have hescape := escape?_escaped hescaped rest
      obtain ⟨l, v, rfl, hl⟩ := exists_cons_of_escaped hescaped
      simp only [List.mem_cons, List.not_mem_nil, or_false, not_or] at hl
      have hblank : ¬ isBlank l = true := by simp [isBlank, hl]
      have hnewline : (newline? (((l :: v) ++ rest).dropWhile isBlank)).isSome = false := by
        rw [List.cons_append, List.dropWhile_cons_of_neg hblank, newline?]
        · rfl
        · exact fun _ h => hl.2.2.1 (List.cons.inj h).1
        · exact fun _ h => hl.2.2.2 (List.cons.inj h).1
      rw [List.cons_append] at h ⊢
      rw [basicLines?]
      simp only [h, hnewline, BEq.rfl, if_true, Bool.false_eq_true, if_false]
      split
      · rename_i h
        obtain ⟨rfl, rfl⟩ := Prod.mk.inj (Option.some.inj (h.symm.trans hescape))
        rfl
      · rename_i h
        cases h.symm.trans hescape
    · rw [List.singleton_append] at h ⊢
      simp [basicLines?, h, isHeld, isControl]
  head c w hc := by
    rcases hc with ⟨⟨hplain, hquote, _⟩ | ⟨_⟩⟩ | rfl
    · exact ⟨c, [], rfl, hquote, ne_return_of_isComment hplain⟩
    · exact ⟨_, _, rfl, by decide⟩
    · exact ⟨_, _, rfl, by decide⟩

theorem readsLines_literal : ReadsLines LiteralChar '\'' literalLines? where
  closing cs found h := by
    cases cs with
    | nil => simp [closing?] at h
    | cons c cs => simp only [literalLines?, h]
  own rest h := by
    have hheld : isHeld '\'' rest = true := isHeld_of_isComment (by decide) rest
    simp [literalLines?, h, hheld]
  content c w rest hc h := by
    rcases hc with ⟨⟨hplain, -⟩⟩ | rfl
    · rw [List.singleton_append] at h ⊢
      simp [literalLines?, h, isHeld_of_isComment hplain]
    · rw [List.singleton_append] at h ⊢
      simp [literalLines?, h, isHeld, isControl]
  head c w hc := by
    rcases hc with ⟨⟨hplain, hquote⟩⟩ | rfl
    · exact ⟨c, [], rfl, hquote, ne_return_of_isComment hplain⟩
    · exact ⟨_, _, rfl, by decide⟩

/-! ## Any text -/

theorem ReadsLines.head?_chars (hread : ReadsLines R quote read) {cs w : List Char}
    (h : Chars R cs w) : w.head? ≠ some quote := by
  cases h with
  | nil => simp
  | cons hc _ =>
    obtain ⟨x, v, rfl, hx, -⟩ := hread.head _ _ (.char hc)
    simpa using hx

theorem ReadsLines.head?_body (hread : ReadsLines R quote read) (hquote : quote ≠ '\r')
    {cs w : List Char} (h : Grammar.Body R quote cs w) : w.head? ≠ some '\r' := by
  have hquotes {n : Nat} {v : List Char} (hv : v.head? ≠ some '\r') :
      (List.replicate n quote ++ v).head? ≠ some '\r' := by
    cases n with
    | zero => exact hv
    | succ n => simpa [List.replicate_succ] using hquote
  cases h with
  | last => simpa using hquotes (v := []) nofun
  | content _ hc _ =>
    obtain ⟨x, v, rfl, -, hx⟩ := hread.head _ _ hc
    exact hquotes (by simpa using hx)

/-- The line end after opening quotes is no part of the text. -/
theorem ReadsLines.trimNewline_opening (hread : ReadsLines R quote read)
    (hquote : quote ≠ '\n' ∧ quote ≠ '\r') {cs w o : List Char} (h : Grammar.Body R quote cs w)
    (ho : Opening w o) (rest : List Char) :
    trimNewline (o ++ (w ++ (fence quote ++ rest))) = w ++ (fence quote ++ rest) := by
  cases ho with
  | trimmed ho => cases ho <;> rfl
  | direct hn =>
    have hr := hread.head?_body hquote.2 h
    have hne {c : Char} (hw : w.head? ≠ some c) (hc : quote ≠ c) (cs : List Char) :
        w ++ (fence quote ++ rest) ≠ c :: cs := by
      cases w with
      | nil => exact fun h => hc (List.cons.inj h).1
      | cons x w => exact fun h => hw (congrArg some (List.cons.inj h).1)
    have hnewline : newline? (w ++ (fence quote ++ rest)) = none := by
      rw [newline?]
      · exact fun _ h => hne hn hquote.1 _ h
      · exact fun _ h => hne hr hquote.2 _ h
    simp [trimNewline, hnewline]

/-- The quotes of a text on one line are not three in a row. -/
theorem ReadsLines.not_fence (hread : ReadsLines R quote read) {cs w : List Char}
    (h : Chars R cs w) {rest : List Char} (hrest : rest.head? ≠ some quote) (v : List Char) :
    w ++ quote :: rest ≠ quote :: quote :: v := by
  have hw := hread.head?_chars h
  cases w with
  | nil => exact fun h => hrest (congrArg List.head? (List.cons.inj h).2)
  | cons x w => exact fun h => hw (congrArg some (List.cons.inj h).1)

/-- Every text of the grammar is read. -/
theorem readText?_text {cs w rest : List Char} (h : Text cs w)
    (hrest : rest.head? ≠ some '"' ∧ rest.head? ≠ some '\'') :
    readText? (w ++ rest) = some (cs, rest) := by
  cases h with
  | @basic w h =>
    have hread : readText? ('"' :: (w ++ '"' :: rest)) = some (cs, rest) := by
      rw [readText?]
      · exact basicLine?_chars h rest
      · exact readsLines_basic.not_fence h hrest.1
    simpa using hread
  | @literal w h =>
    have hread : readText? ('\'' :: (w ++ '\'' :: rest)) = some (cs, rest) := by
      rw [readText?]
      · exact literalLine?_chars h rest
      · exact readsLines_literal.not_fence h hrest.2
    simpa using hread
  | @basicLines o w ho h =>
    have hread : readText? (fence '"' ++ (o ++ (w ++ (fence '"' ++ rest)))) = some (cs, rest) := by
      change basicLines? (trimNewline (o ++ (w ++ (fence '"' ++ rest)))) = _
      rw [readsLines_basic.trimNewline_opening (by decide) h ho]
      exact read_body readsLines_basic h hrest.1
    simpa using hread
  | @literalLines o w ho h =>
    have hread :
        readText? (fence '\'' ++ (o ++ (w ++ (fence '\'' ++ rest)))) = some (cs, rest) := by
      change literalLines? (trimNewline (o ++ (w ++ (fence '\'' ++ rest)))) = _
      rw [readsLines_literal.trimNewline_opening (by decide) h ho]
      exact read_body readsLines_literal h hrest.2
    simpa using hread

/-! ## Writing -/

/-- The digits of a control denote it. -/
theorem escaped_controlEscape {c : Char} (h : isControl c = true) :
    Escaped c (controlEscape c).tail := by
  have hdigits : ∀ n < 0x80, codePoint? ['0', '0', (Nat.digitChar (n / 16)).toUpper,
      (Nat.digitChar (n % 16)).toUpper] = some (Char.ofNat n) := by decide
  have hc : c.toNat < 0x80 := by
    simp only [isControl, Bool.or_eq_true, Bool.and_eq_true, decide_eq_true_eq, beq_iff_eq] at h
    omega
  exact .short rfl (by simpa using hdigits c.toNat hc)

/-- What a basic form writes for a character that is no quote. -/
def writtenChar (lines : Bool) (c : Char) : List Char :=
  if c == '\x08' then ['\\', 'b']
  else if c == '\t' then ['\\', 't']
  else if c == '\n' then if lines then [c] else ['\\', 'n']
  else if c == '\x0c' then ['\\', 'f']
  else if c == '\r' then ['\\', 'r']
  else if c == '\\' then ['\\', '\\']
  else if isControl c then controlEscape c
  else [c]

theorem written_writtenChar (lines : Bool) {c : Char} (hquote : c ≠ '"') :
    Written lines c (writtenChar lines c) ∧ writtenChar lines c ≠ ['"'] := by
  unfold writtenChar
  split_ifs with hb ht hn hlines hf hr hs hcontrol
  all_goals
    simp only [beq_iff_eq] at *
    refine ⟨?_, by simp [controlEscape, hquote]⟩
  · exact .escape (.letter (by simp [letters, hb]))
  · exact .escape (.letter (by simp [letters, ht]))
  · exact .plain (by simp [hn]) (by simp [hn, isControl]) fun _ => hlines
  · exact .escape (.letter (by simp [letters, hn]))
  · exact .escape (.letter (by simp [letters, hf]))
  · exact .escape (.letter (by simp [letters, hr]))
  · exact .escape (.letter (by simp [letters, hs]))
  · exact .escape (escaped_controlEscape hcontrol)
  · exact .plain hs (by simpa using hcontrol) fun h => absurd h (by simp [hn, hquote])

/-- A basic form writes its characters in turn. Quotes are written as they are only on several
lines and only two in a row. -/
theorem writeBasic_cons (lines : Bool) (run : Nat) (c : Char) (cs : List Char) :
    ∃ w next, writeBasic lines run (c :: cs) = w ++ writeBasic lines next cs ∧
      Written lines c w ∧ (w = ['"'] ∧ run < 2 ∧ next = run + 1 ∨ w ≠ ['"'] ∧ next = 0) := by
  by_cases hquote : c = '"'
  · subst hquote
    by_cases hraw : (lines && decide (run < 2)) = true
    · obtain ⟨hlines, hrun⟩ := Bool.and_eq_true_iff.mp hraw
      refine ⟨['"'], run + 1, ?_, .plain (by decide) (by decide) fun _ => hlines,
        .inl ⟨rfl, of_decide_eq_true hrun, rfl⟩⟩
      simp only [writeBasic, BEq.rfl, if_true, hraw]
      rfl
    · refine ⟨['\\', '"'], 0, ?_, .escape (.letter (by decide)), .inr ⟨by decide, rfl⟩⟩
      simp only [writeBasic, BEq.rfl, if_true, hraw]
      rfl
  · obtain ⟨hwritten, hne⟩ := written_writtenChar lines hquote
    refine ⟨_, 0, ?_, hwritten, .inr ⟨hne, rfl⟩⟩
    rw [writeBasic, if_neg (by simpa using hquote)]
    rfl

/-- Three in a row do not go past something else that follows at most two. -/
theorem infix_of_ne {α : Type} {x y : α} {n : Nat} (hn : n ≤ 2) (hy : y ≠ x) {ys : List α}
    (h : List.replicate 3 x <:+: List.replicate n x ++ y :: ys) : List.replicate 3 x <:+: ys := by
  interval_cases n
  all_goals simpa [List.replicate_succ, List.infix_cons_iff, List.cons_prefix_cons, hy.symm] using h

/-- The parts that a basic form writes, with no three quotes in a row. -/
theorem exists_writeBasic (lines : Bool) (cs : List Char) {run : Nat} (hrun : run ≤ 2) :
    ∃ ws, writeBasic lines run cs = ws.flatten ∧ List.Forall₂ (Written lines) cs ws ∧
      ¬ List.replicate 3 ['"'] <:+: List.replicate run ['"'] ++ ws := by
  induction cs generalizing run with
  | nil =>
    refine ⟨[], rfl, .nil, fun h => ?_⟩
    have := h.length_le
    simp at this
    omega
  | cons c cs ih =>
    obtain ⟨w, next, hwrite, hw, ⟨rfl, hlt, rfl⟩ | ⟨hne, rfl⟩⟩ := writeBasic_cons lines run c cs
    · obtain ⟨ws, hws, hforall, hquotes⟩ := ih (show run + 1 ≤ 2 by omega)
      refine ⟨['"'] :: ws, by simp [hwrite, hws], .cons hw hforall, ?_⟩
      simpa [List.replicate_succ'] using hquotes
    · obtain ⟨ws, hws, hforall, hquotes⟩ := ih (Nat.zero_le 2)
      exact ⟨w :: ws, by simp [hwrite, hws], .cons hw hforall, fun h =>
        hquotes (infix_of_ne hrun hne h)⟩

/-- A text in which no more than two quotes are in a row. -/
theorem not_infix_of_exceeds {quote : Char} {cs : List Char} {run : Nat} (hrun : run ≤ 2)
    (h : exceeds quote 2 run cs = false) :
    ¬ List.replicate 3 quote <:+: List.replicate run quote ++ cs := by
  induction cs generalizing run with
  | nil =>
    intro h
    have := h.length_le
    simp at this
    omega
  | cons c cs ih =>
    by_cases hc : c = quote
    · subst hc
      rw [exceeds, if_pos BEq.rfl, Bool.or_eq_false_iff, decide_eq_false_iff_not] at h
      simpa [List.replicate_succ'] using ih (by omega) h.2
    · rw [exceeds, if_neg (by simpa using hc)] at h
      exact fun hinfix => ih (Nat.zero_le 2) h (infix_of_ne hrun hc hinfix)

/-- Opening quotes are followed by a line end, unless the text has none. -/
theorem opening_of_head? {cs w : List Char} (h : '\n' ∉ cs → w.head? ≠ some '\n') :
    Opening w (opening cs) := by
  by_cases hcs : '\n' ∈ cs
  · simpa [opening, hcs] using Opening.trimmed .newline
  · simpa [opening, hcs] using Opening.direct (h hcs)

theorem form_basic (cs : List Char) : Form cs ('"' :: (writeBasic false 0 cs ++ ['"'])) := by
  obtain ⟨ws, hws, hforall, -⟩ := exists_writeBasic false cs (Nat.zero_le 2)
  exact hws ▸ .basic hforall

theorem form_basicLines (cs : List Char) :
    Form cs (fence '"' ++ (opening cs ++ (writeBasic true 0 cs ++ fence '"'))) := by
  obtain ⟨ws, hws, hforall, hquotes⟩ := exists_writeBasic true cs (Nat.zero_le 2)
  rw [hws]
  refine .basicLines hforall hquotes (opening_of_head? fun hn => ?_)
  cases hforall with
  | nil => simp
  | @cons c w cs ws hw =>
    cases hw with
    | plain =>
      have hc : c ≠ '\n' := fun h => hn (h ▸ List.mem_cons_self)
      simpa using hc
    | escape => simp

/-- What is written for a text is one of its forms. -/
theorem form_writeText (cs : List Char) : Form cs (writeText cs) := by
  have hbasic := form_basic cs
  have hlines := form_basicLines cs
  simp only [writeText]
  split_ifs with hplain hliteral hbasicLines hliteralLines
  · simpa using hbasic
  · simp only [Bool.and_eq_true, Bool.not_eq_true', List.any_eq_false, Bool.not_eq_true,
      List.contains_eq_mem, decide_eq_false_iff_not] at hliteral
    have hform : Form cs ('\'' :: (cs ++ ['\''])) := .literal fun c hc =>
      ⟨hliteral.1.1 c hc, fun h => hliteral.1.2 (h ▸ hc), fun h => hliteral.2 (h ▸ hc)⟩
    simpa using hform
  · simpa [fence] using hlines
  · simp only [Bool.and_eq_true, Bool.not_eq_true', List.any_eq_false, Bool.not_eq_true]
      at hliteralLines
    have hquotes := not_infix_of_exceeds (Nat.zero_le 2) hliteralLines.2
    have hopening : Opening cs (opening cs) := opening_of_head? fun hn h =>
      hn (List.mem_of_head? h)
    simpa [fence] using Form.literalLines hliteralLines.1 hquotes hopening
  · simpa [fence] using hlines
  · simpa using hbasic

end EffectLayers.Toml
