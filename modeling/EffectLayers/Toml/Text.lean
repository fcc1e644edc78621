/-!
# Texts in TOML documents

A text has four written forms: basic and literal, each on one line or on several. Basic forms
have escapes, literal ones have none. A text is written in the plainest form that can hold it.

## Main definitions

* `Toml.readText?`: a written text at the front of a document.
* `Toml.writeText`: the written form of a text.
-/

namespace EffectLayers.Toml

/-! ## Characters -/

/-- Controls that no written text may hold as they are; tab and newline are not among them. -/
def isControl (c : Char) : Bool :=
  c.toNat < 0x20 && c != '\t' && c != '\n' || c.toNat == 0x7F

def isBlank (c : Char) : Bool := c == ' ' || c == '\t'

/-- What follows a line end at the front, which is a newline with or without a carriage
return before it. -/
def newline? : List Char → Option (List Char)
  | '\n' :: rest => some rest
  | '\r' :: '\n' :: rest => some rest
  | _ => none

/-- The document without the line end that may follow opening quotes. -/
def trimNewline (cs : List Char) : List Char := (newline? cs).getD cs

/-- The document without the blanks and line ends at its front. -/
def skipLines : List Char → List Char
  | '\n' :: rest => skipLines rest
  | '\r' :: '\n' :: rest => skipLines rest
  | c :: rest => if isBlank c then skipLines rest else c :: rest
  | [] => []

theorem length_skipLines_le (cs : List Char) : (skipLines cs).length ≤ cs.length := by
  fun_induction skipLines cs with
  | case1 rest ih => exact Nat.le_succ_of_le ih
  | case2 rest ih => exact Nat.le_succ_of_le (Nat.le_succ_of_le ih)
  | case3 c rest _ _ _ ih => exact Nat.le_succ_of_le ih
  | case4 => simp
  | case5 => simp

/-! ## Reading -/

def hexDigit? (c : Char) : Option Nat :=
  if '0' ≤ c ∧ c ≤ '9' then some (c.toNat - '0'.toNat)
  else if 'a' ≤ c ∧ c ≤ 'f' then some (c.toNat - 'a'.toNat + 10)
  else if 'A' ≤ c ∧ c ≤ 'F' then some (c.toNat - 'A'.toNat + 10)
  else none

/-- The character of a code point in hexadecimal digits. -/
def codePoint? (digits : List Char) : Option Char := do
  let n ← digits.foldlM (fun n c => (hexDigit? c).map (16 * n + ·)) 0
  if n.isValidChar then some (Char.ofNat n) else none

/-- The character of an escape of one letter. -/
def shortEscape? : Char → Option Char
  | 'b' => some '\x08'
  | 'e' => some '\x1b'
  | 't' => some '\t'
  | 'n' => some '\n'
  | 'f' => some '\x0c'
  | 'r' => some '\r'
  | '"' => some '"'
  | '\\' => some '\\'
  | _ => none

/-- The character of so many hexadecimal digits at the front, and what follows them. -/
def hexEscape? (n : Nat) (cs : List Char) : Option (Char × List Char) :=
  if cs.length < n then none else (codePoint? (cs.take n)).map (·, cs.drop n)

/-- The character of an escape, read after its backslash, and what follows it. -/
def escape? : List Char → Option (Char × List Char)
  | 'x' :: rest => hexEscape? 2 rest
  | 'u' :: rest => hexEscape? 4 rest
  | 'U' :: rest => hexEscape? 8 rest
  | c :: rest => (shortEscape? c).map (·, rest)
  | [] => none

theorem length_le_of_hexEscape? {n : Nat} {cs rest : List Char} {c : Char}
    (h : hexEscape? n cs = some (c, rest)) : rest.length ≤ cs.length := by
  unfold hexEscape? at h
  split at h
  · simp at h
  · obtain ⟨_, -, h⟩ := Option.map_eq_some_iff.mp h
    obtain ⟨-, rfl⟩ := Prod.mk.inj h
    simp

theorem length_lt_of_escape? {cs rest : List Char} {c : Char}
    (h : escape? cs = some (c, rest)) : rest.length < cs.length := by
  unfold escape? at h
  split at h
  · exact Nat.lt_succ_of_le (length_le_of_hexEscape? h)
  · exact Nat.lt_succ_of_le (length_le_of_hexEscape? h)
  · exact Nat.lt_succ_of_le (length_le_of_hexEscape? h)
  · obtain ⟨_, -, h⟩ := Option.map_eq_some_iff.mp h
    obtain ⟨-, rfl⟩ := Prod.mk.inj h
    simp
  · simp at h

/-- Put a character in front of what was read. -/
def consTo (c : Char) : List Char × List Char → List Char × List Char
  | (text, rest) => (c :: text, rest)

/-- The rest of a basic text on one line, and what follows its closing quote. -/
def basicLine? (cs : List Char) : Option (List Char × List Char) :=
  match cs with
  | '"' :: rest => some ([], rest)
  | '\\' :: rest =>
    match _h : escape? rest with
    | some (c, rest) => (basicLine? rest).map (consTo c)
    | none => none
  | c :: rest =>
    if isControl c || c == '\n' then none else (basicLine? rest).map (consTo c)
  | [] => none
termination_by cs.length
decreasing_by
  · exact Nat.lt_succ_of_lt (length_lt_of_escape? _h)
  · exact Nat.lt_succ_self _

/-- The rest of a literal text on one line. -/
def literalLine? : List Char → Option (List Char × List Char)
  | '\'' :: rest => some ([], rest)
  | c :: rest =>
    if isControl c || c == '\n' then none else (literalLine? rest).map (consTo c)
  | [] => none

/-- The closing three quotes of a text on several lines, before which up to two more belong to
the text: answers those and what follows. -/
def closing? (quote : Char) (cs : List Char) : Option (List Char × List Char) :=
  let n := (cs.takeWhile (· == quote)).length
  if n < 3 then none
  else
    let own := min (n - 3) 2
    some (List.replicate own quote, cs.drop (own + 3))

/-- Whether a text on several lines may hold the character before `rest` as it is: a carriage
return only as a part of a line end. -/
def isHeld (c : Char) (rest : List Char) : Bool :=
  !isControl c || c == '\r' && rest.head? == some '\n'

/-- The rest of a basic text on several lines. A backslash at the end of a line removes all
blanks and line ends up to the next other character. -/
def basicLines? (cs : List Char) : Option (List Char × List Char) :=
  match cs with
  | [] => none
  | c :: rest =>
    match closing? '"' (c :: rest) with
    | some found => some found
    | none =>
      if c == '\\' then
        if (newline? (rest.dropWhile isBlank)).isSome then basicLines? (skipLines rest)
        else
          match _h : escape? rest with
          | some (e, rest) => (basicLines? rest).map (consTo e)
          | none => none
      else if isHeld c rest then (basicLines? rest).map (consTo c)
      else none
termination_by cs.length
decreasing_by
  · exact Nat.lt_succ_of_le (length_skipLines_le rest)
  · exact Nat.lt_succ_of_lt (length_lt_of_escape? _h)
  · simp

/-- The rest of a literal text on several lines. -/
def literalLines? : List Char → Option (List Char × List Char)
  | [] => none
  | c :: rest =>
    match closing? '\'' (c :: rest) with
    | some found => some found
    | none => if isHeld c rest then (literalLines? rest).map (consTo c) else none

/-- A text at the front of a document, and what follows it. -/
def readText? : List Char → Option (List Char × List Char)
  | '"' :: '"' :: '"' :: rest => basicLines? (trimNewline rest)
  | '"' :: rest => basicLine? rest
  | '\'' :: '\'' :: '\'' :: rest => literalLines? (trimNewline rest)
  | '\'' :: rest => literalLine? rest
  | _ => none

/-! ## Writing -/

/-- Whether the quote occurs more than `n` times in a row, `run` of them just before. -/
def exceeds (quote : Char) (n : Nat) (run : Nat) : List Char → Bool
  | [] => false
  | c :: cs => if c == quote then run + 1 > n || exceeds quote n (run + 1) cs
    else exceeds quote n 0 cs

/-- The four upper-case hexadecimal digits of a control character. -/
def controlEscape (c : Char) : List Char :=
  let digit (n : Nat) : Char := (Nat.digitChar n).toUpper
  ['\\', 'u', '0', '0', digit (c.toNat / 16), digit (c.toNat % 16)]

/-- The characters between the quotes of a basic form. On several lines, newlines stay as they
are and so do the first two quotes in a row. -/
def writeBasic (lines : Bool) (run : Nat) : List Char → List Char
  | [] => []
  | c :: cs =>
    if c == '"' then
      if lines && run < 2 then c :: writeBasic lines (run + 1) cs
      else '\\' :: c :: writeBasic lines 0 cs
    else
      let written :=
        if c == '\x08' then ['\\', 'b']
        else if c == '\t' then ['\\', 't']
        else if c == '\n' then if lines then [c] else ['\\', 'n']
        else if c == '\x0c' then ['\\', 'f']
        else if c == '\r' then ['\\', 'r']
        else if c == '\\' then ['\\', '\\']
        else if isControl c then controlEscape c
        else [c]
      written ++ writeBasic lines 0 cs

/-- The line end after the opening quotes of a text that has line ends of its own. -/
def opening (cs : List Char) : List Char := if cs.contains '\n' then ['\n'] else []

/-- The written form of a text: basic if nothing has to be escaped, else literal, else basic on
several lines if nothing has to be escaped there, else literal on several lines if it can be,
else with escapes. -/
def writeText (cs : List Char) : List Char :=
  let controls := cs.any isControl
  let backslash := cs.contains '\\'
  let newline := cs.contains '\n'
  let basicLines := ['"', '"', '"'] ++ opening cs ++ writeBasic true 0 cs ++ ['"', '"', '"']
  if !controls && !backslash && !newline && !cs.contains '"' then
    ['"'] ++ writeBasic false 0 cs ++ ['"']
  else if !controls && !newline && !cs.contains '\'' then ['\''] ++ cs ++ ['\'']
  else if !controls && !backslash && !exceeds '"' 2 0 cs then basicLines
  else if !controls && !exceeds '\'' 2 0 cs then
    ['\'', '\'', '\''] ++ opening cs ++ cs ++ ['\'', '\'', '\'']
  else if newline then basicLines
  else ['"'] ++ writeBasic false 0 cs ++ ['"']

end EffectLayers.Toml
