/-!
# Items of TOML documents

A document gives values to keys, in tables that nest. A table is made in one of four ways,
which decides how the rest of the document may add to it.

## Main definitions

* `Toml.Item`: what a key is given.
* `Toml.assign?`: a value given to a dotted key.
* `Toml.open?`: a table opened by its header.
-/

namespace EffectLayers.Toml

/-- A value without parts. -/
inductive Scalar where
  | truth (b : Bool)
  | text (s : String)
  deriving DecidableEq

/-- How a table is made. -/
inductive TableForm where
  /-- As a value: nothing is added to it. -/
  | inline
  /-- By a header of its own. -/
  | opened
  /-- By the header of a table in it; its own header may follow. -/
  | implied
  /-- By a dotted key. -/
  | dotted
  deriving DecidableEq

/-- What a key is given. Numbers, dates and arrays with items are not among it. -/
inductive Item where
  | scalar (s : Scalar)
  | emptyArray
  | table (form : TableForm) (entries : List (String × Item))

/-- The entries of a table or of a document, each key once. -/
abbrev Entries := List (String × Item)

/-- The entries with another item for a key that they have. -/
def replace (key : String) (item : Item) (es : Entries) : Entries :=
  es.map fun e => if e.1 == key then (key, item) else e

/-- The entries with a value given to a dotted key. Neither is a key given twice, nor is a
table added to that a header made. -/
def assign? (value : Item) : List String → Entries → Option Entries
  | [], _ => none
  | [key], es =>
    match es.lookup key with
    | none => some (es ++ [(key, value)])
    | some _ => none
  | key :: path, es =>
    match es.lookup key with
    | none => (assign? value path []).map fun inner => es ++ [(key, .table .dotted inner)]
    | some (.table .dotted inner) =>
      (assign? value path inner).map fun inner => replace key (.table .dotted inner) es
    | some _ => none

/-- The entries with a table opened by its header, which happens once. -/
def open? : List String → Entries → Option Entries
  | [], _ => none
  | [key], es =>
    match es.lookup key with
    | none => some (es ++ [(key, .table .opened [])])
    | some (.table .implied inner) => some (replace key (.table .opened inner) es)
    | some _ => none
  | key :: path, es =>
    match es.lookup key with
    | none => (open? path []).map fun inner => es ++ [(key, .table .implied inner)]
    | some (.table form inner) =>
      if form = .inline then none
      else (open? path inner).map fun inner => replace key (.table form inner) es
    | some _ => none

/-- The entries with the table of a path changed. -/
def within? (change : Entries → Option Entries) : List String → Entries → Option Entries
  | [], es => change es
  | key :: path, es =>
    match es.lookup key with
    | some (.table form inner) =>
      (within? change path inner).map fun inner => replace key (.table form inner) es
    | _ => none

namespace Item

def truth? : Item → Option Bool
  | scalar (.truth b) => some b
  | _ => none

def text? : Item → Option String
  | scalar (.text s) => some s
  | _ => none

/-- The name of one of several choices: as a text, or as the only key of a table that gives it
an empty table or array. -/
def choice? : Item → Option String
  | scalar (.text s) => some s
  | table _ [(name, table _ [])] => some name
  | table _ [(name, emptyArray)] => some name
  | _ => none

end Item

end EffectLayers.Toml
