import EffectLayers.Toml.Item
import EffectLayers.Toml.Text

/-!
# TOML documents

A document is a sequence of statements: headers, which open tables, and values given to keys.
Numbers, dates and arrays with items are refused, as no key takes one.

## Main definitions

* `Toml.Statement`, `Toml.statements?`: the statements of a document.
* `Toml.collect?`: the entries that statements make.
* `Toml.Reader`, `Toml.Writer`: what reads and writes documents.
* `Toml.read?`: the entries of a document.
* `Toml.write`: a document of one line for each entry.
-/

namespace EffectLayers.Toml

/-- What reads documents: the entries of a document, if it has any. -/
abbrev Reader := String → Option Entries

/-- What writes documents: the document of some entries, if they can be written. -/
abbrev Writer := List (String × Scalar) → Option String

/-- A statement of a document. -/
inductive Statement where
  | header (path : List String)
  | entry (path : List String) (value : Item)

/-! ## Reading -/

/-- Drop the blanks at the front. -/
def skipBlank (cs : List Char) : List Char := cs.dropWhile isBlank

/-- Characters that a comment may hold. -/
def isComment (c : Char) : Bool := !isControl c && c != '\n'

/-- The rest of the document after blanks and a comment up to the end of the line. -/
def endLine? (cs : List Char) : Option (List Char) :=
  let cs := match skipBlank cs with
    | '#' :: rest => rest.dropWhile isComment
    | cs => cs
  if cs.isEmpty then some [] else newline? cs

/-- Drop the blanks, line ends and comments at the front; `comment` says that a comment goes
on there. -/
def skipLayout (comment : Bool) : List Char → List Char
  | '\n' :: rest => skipLayout false rest
  | '\r' :: '\n' :: rest => skipLayout false rest
  | c :: rest =>
    if comment && isComment c || c == '#' then skipLayout true rest
    else if isBlank c then skipLayout false rest
    else c :: rest
  | [] => []

def isBareKey (c : Char) : Bool := c.isAlphanum || c == '_' || c == '-'

/-- A key at the front, bare or quoted on one line. -/
def key? : List Char → Option (List Char × List Char)
  | '"' :: rest => basicLine? rest
  | '\'' :: rest => literalLine? rest
  | cs =>
    let (key, rest) := cs.span isBareKey
    if key.isEmpty then none else some (key, rest)

/-- The keys of a dotted key at the front, at most so many, and what follows the blanks after
it. -/
def path? : Nat → List Char → Option (List String × List Char)
  | 0, _ => none
  | n + 1, cs => do
    let (key, rest) ← key? cs
    match skipBlank rest with
    | '.' :: rest =>
      let (path, rest) ← path? n (skipBlank rest)
      return (String.ofList key :: path, rest)
    | rest => return ([String.ofList key], rest)

/-- A dotted key and its equals sign at the front, and what follows the blanks after it. -/
def assigned? (cs : List Char) : Option (List String × List Char) := do
  match ← path? cs.length cs with
  | (path, '=' :: rest) => return (path, skipBlank rest)
  | _ => none

/-- A value without parts at the front. -/
def scalar? (cs : List Char) : Option (Scalar × List Char) :=
  if "true".toList.isPrefixOf cs then some (.truth true, cs.drop 4)
  else if "false".toList.isPrefixOf cs then some (.truth false, cs.drop 5)
  else (readText? cs).map fun (text, rest) => (.text (String.ofList text), rest)

mutual

/-- A value at the front, with at most so many parts. -/
def value? : Nat → List Char → Option (Item × List Char)
  | n + 1, '\x7b' :: rest => do
    let (entries, rest) ← members? n [] (skipLayout false rest)
    return (.table .inline entries, rest)
  | _, '[' :: rest =>
    match skipLayout false rest with
    | ']' :: rest => some (.emptyArray, rest)
    | _ => none
  | _, cs => (scalar? cs).map fun (s, rest) => (.scalar s, rest)

/-- The rest of an inline table, after the entries before it and a comma. -/
def members? : Nat → Entries → List Char → Option (Entries × List Char)
  | _, es, '\x7d' :: rest => some (es, rest)
  | n + 1, es, cs => do
    let (path, rest) ← assigned? cs
    let (value, rest) ← value? n rest
    let es ← assign? value path es
    match skipLayout false rest with
    | ',' :: rest => members? n es (skipLayout false rest)
    | '\x7d' :: rest => return (es, rest)
    | _ => none
  | _, _, _ => none

end

/-- A statement at the front, and what follows the end of its line. -/
def statement? (cs : List Char) : Option (Statement × List Char) := do
  match cs with
  | '[' :: rest =>
    match ← path? rest.length (skipBlank rest) with
    | (path, ']' :: rest) => return (.header path, ← endLine? rest)
    | _ => none
  | cs =>
    let (path, rest) ← assigned? cs
    let (value, rest) ← value? rest.length rest
    return (.entry path value, ← endLine? rest)

/-- The statements of a document of at most so many lines. -/
def statements? : Nat → List Char → Option (List Statement)
  | 0, cs => if cs.isEmpty then some [] else none
  | n + 1, cs =>
    match skipBlank cs with
    | [] => some []
    | cs =>
      match endLine? cs with
      | some rest => statements? n rest
      | none => do
        let (statement, rest) ← statement? cs
        return statement :: (← statements? n rest)

/-- The entries that statements make, after those made before them; `current` is the path of
the table that was opened last. -/
def collect? : List Statement → List String → Entries → Option Entries
  | [], _, es => some es
  | .header path :: rest, _, es => (open? path es).bind (collect? rest path)
  | .entry path value :: rest, current, es =>
    (within? (assign? value path) current es).bind (collect? rest current)

/-- The document without a byte order mark at its front. -/
def skipMark : List Char → List Char
  | '\uFEFF' :: rest => rest
  | cs => cs

/-- The entries of a document. -/
def read? : Reader := fun s => do
  let cs := skipMark s.toList
  collect? (← statements? cs.length cs) [] []

/-! ## Writing -/

def writeScalar : Scalar → List Char
  | .truth b => (toString b).toList
  | .text s => writeText s.toList

/-- One entry as a line. -/
def writeLine (key : String) (value : Scalar) : List Char :=
  key.toList ++ [' ', '=', ' '] ++ writeScalar value ++ ['\n']

/-- A document of one line for each entry. -/
def write (entries : List (String × Scalar)) : String :=
  String.ofList (entries.flatMap fun (key, value) => writeLine key value)

/-- Every document can be written. -/
def write? : Writer := fun entries => some (write entries)

end EffectLayers.Toml
