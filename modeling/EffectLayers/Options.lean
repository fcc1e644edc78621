import EffectLayers.Definition
import EffectLayers.Toml.Document

/-!
# Options

Which layers are stacked on a seed, and the options as a document.

## Main definitions

* `Options`, `Options.bare`: the options, and those without any layer.
* `Options.ofToml?`, `Options.toToml?`: options as a document, by any reader and writer.
-/

namespace EffectLayers

/-- Where the methods of carried values look for their definition. -/
inductive Dispatch where
  /-- In the definition that was built. -/
  | home
  /-- In the installed definition, at each call. -/
  | ambient
  deriving DecidableEq, Inhabited

namespace ContextMode

def all : List ContextMode := [off, runOnly, full]

def name : ContextMode → String
  | off => "off"
  | runOnly => "run-only"
  | full => "full"

def ofName? (s : String) : Option ContextMode := all.find? (·.name == s)

end ContextMode

namespace Dispatch

def name : Dispatch → String
  | home => "home"
  | ambient => "ambient"

def ofName? (s : String) : Option Dispatch := [home, ambient].find? (·.name == s)

end Dispatch

/-- Which layers are stacked on a seed. -/
structure Options where
  /-- Add `block`, `raise` and `handle`. -/
  escape : Bool
  /-- Wrap values in a carrier with a brand of this name. -/
  carrier : Option String
  coercion : Bool
  context : ContextMode
  dispatch : Dispatch
  deriving DecidableEq

namespace Options

/-- The options of an empty document. -/
def standard : Options := ⟨true, none, true, .full, .home⟩

instance : Inhabited Options := ⟨standard⟩

/-- Only the derivation, with no layer on top. -/
def bare : Options := ⟨false, none, false, .off, .home⟩

def keys : List String := ["escape", "carrier", "coercion", "context", "dispatch"]

/-- The value of a key: the default if it is not given, nothing if it is of the wrong kind. -/
def field? {α : Type} (entries : Toml.Entries) (key : String) (default : α)
    (convert : Toml.Item → Option α) : Option α :=
  match entries.lookup key with
  | none => some default
  | some value => convert value

/-- The options that entries describe, if each key is known and of its kind. -/
def ofEntries? (entries : Toml.Entries) : Option Options := do
  guard (∀ e ∈ entries, e.1 ∈ keys)
  return {
    escape := ← field? entries "escape" standard.escape (·.truth?)
    carrier := ← field? entries "carrier" standard.carrier fun v => v.text?.map some
    coercion := ← field? entries "coercion" standard.coercion (·.truth?)
    context := ← field? entries "context" standard.context fun v =>
      v.choice?.bind ContextMode.ofName?
    dispatch := ← field? entries "dispatch" standard.dispatch fun v =>
      v.choice?.bind Dispatch.ofName? }

/-- The options that a document describes. -/
def ofToml? (read? : Toml.Reader) (s : String) : Option Options := do ofEntries? (← read? s)

/-- The entries that describe the options. -/
def entries (o : Options) : List (String × Toml.Scalar) :=
  [("escape", .truth o.escape)]
    ++ (o.carrier.map fun name => ("carrier", .text name)).toList
    ++ [("coercion", .truth o.coercion), ("context", .text o.context.name),
      ("dispatch", .text o.dispatch.name)]

/-- The options as a document. -/
def toToml? (write? : Toml.Writer) (o : Options) : Option String := write? o.entries

/-- The options as a document in the plainest forms. -/
def toToml (o : Options) : String := Toml.write o.entries

theorem toToml?_write? (o : Options) : o.toToml? Toml.write? = some o.toToml := rfl

end Options

end EffectLayers
