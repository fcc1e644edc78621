import EffectLayers.Text.Columns

/-!
# Laying out documents

A document is a text with optional line breaks. A group is printed on one line if it and
what follows it up to the next possible break fit the page, and with all its own breaks
otherwise.

## Main definitions

* `Doc`: documents.
* `Doc.flat`, `Doc.flatWidth`: a document on one line, and its columns.
* `Doc.layout`: a document at an indentation, with the documents that follow it.
* `Doc.render`: a whole document on a page.
-/

namespace EffectLayers

/-- A text with optional line breaks. -/
inductive Doc where
  | text (s : String)
  /-- A line break, or `s` in a group that is on one line. -/
  | line (s : String)
  | append (a b : Doc)
  /-- `d` with the lines begun in it indented `n` columns further. -/
  | nest (n : Nat) (d : Doc)
  | group (d : Doc)

namespace Doc

instance : Append Doc := ⟨Doc.append⟩

/-- The document on one line. -/
def flat : Doc → String
  | text s => s
  | line s => s
  | append a b => a.flat ++ b.flat
  | nest _ d => d.flat
  | group d => d.flat

/-- Columns of the document on one line. -/
def flatWidth : Doc → Nat
  | text s => Text.columns s
  | line s => Text.columns s
  | append a b => a.flatWidth + b.flatWidth
  | nest _ d => d.flatWidth
  | group d => d.flatWidth

/-- Columns of the document up to its first possible break, and whether it has one. -/
def lead : Doc → Nat × Bool
  | text s => (Text.columns s, false)
  | line _ => (0, true)
  | append a b =>
    let (n, broken) := a.lead
    if broken then (n, true)
    else
      let (m, broken) := b.lead
      (n + m, broken)
  | nest _ d => d.lead
  | group d => d.lead

/-- Columns of a sequence of documents up to the first possible break. -/
def trailing : List (Nat × Doc) → Nat
  | [] => 0
  | (_, d) :: rest =>
    let (n, broken) := d.lead
    if broken then n else n + trailing rest

/-- Lay a document out from column `column`, on a page of `page` columns. `rest` is what
follows, each with its indentation. A new line takes the indentation of what is printed next.
Answers the text and the column it ends in. -/
def layout (page : Nat) : Doc → Nat → List (Nat × Doc) → Nat → String × Nat
  | text s, _, _, column => (s, column + Text.columns s)
  | line _, indent, rest, _ =>
    let next := match rest with
      | [] => indent
      | (n, _) :: _ => n
    ("\n" ++ String.ofList (List.replicate next ' '), next)
  | append a b, indent, rest, column =>
    let (s, column) := a.layout page indent ((indent, b) :: rest) column
    let (t, column) := b.layout page indent rest column
    (s ++ t, column)
  | nest n d, indent, rest, column => d.layout page (indent + n) rest column
  | group d, indent, rest, column =>
    if column + d.flatWidth + trailing rest ≤ page then (d.flat, column + d.flatWidth)
    else d.layout page indent rest column

/-- The document on a page of `page` columns. -/
def render (page : Nat) (d : Doc) : String := (d.layout page 0 [] 0).1

/-- Documents separated by a comma and a possible break. -/
def commaSeparated : List Doc → Doc
  | [] => text ""
  | [d] => d
  | d :: rest => d ++ (text "," ++ (line " " ++ commaSeparated rest))

/-- `opening a, b, c closing`, on one line if it fits, else with its items on lines of
their own, two columns further in. -/
def delimited (opening : String) (items : List Doc) (closing : String) : Doc :=
  let body := match items with
    | [] => line ""
    | _ => line "" ++ commaSeparated items
  group (text opening ++ nest 2 body ++ line "" ++ text closing)

end Doc

end EffectLayers
