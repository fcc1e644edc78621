import EffectLayers.Definition

/-!
# The catalog of definitions

Every definition that was ever made, and which of them each brand was adopted by. Assembling
a definition adds to the catalog; programs only read it.

## Main definitions

* `Catalog`: the definitions and the homes of the brands.
* `ConfigError`: why a definition cannot be assembled.
* `Assembly`: steps that add to the catalog; what a refused step added before is kept.
-/

namespace EffectLayers

/-- The first number given to a brand or to a scope. -/
def firstNumber : Nat := 1000000

/-- The definitions ever made, in order, and the homes of brands, latest first. -/
structure Catalog : Type 1 where
  definitions : Array Definition
  homes : List (BrandId × DefId)
  nextBrand : BrandId

namespace Catalog

def empty : Catalog := ⟨#[], [], firstNumber⟩

/-- The identity that the next definition gets. -/
def nextId (c : Catalog) : DefId := c.definitions.size

def add (c : Catalog) (d : Definition) : Catalog :=
  { c with definitions := c.definitions.push d }

/-- The definition of an identity. -/
def get? (c : Catalog) (d : DefId) : Option Definition := c.definitions[d]?

/-- The definition that adopted a brand last. -/
def home (c : Catalog) (b : BrandId) : Option DefId := c.homes.lookup b

/-- Make a definition the home of a brand. -/
def adopt (c : Catalog) (b : Brand) (d : DefId) : Catalog :=
  { c with homes := (b.id, d) :: c.homes }

theorem get?_add_self (c : Catalog) (d : Definition) : (c.add d).get? c.nextId = some d := by
  simp [get?, add, nextId]

@[simp] theorem home_adopt_self (c : Catalog) (b : Brand) (d : DefId) :
    (c.adopt b d).home b.id = some d := by
  simp [home, adopt]

/-- A definition and all that it was layered on. -/
def lineage (c : Catalog) (d : DefId) : List DefId :=
  match c.get? d with
  | some definition => definition.lineage.map (·.1)
  | none => []

end Catalog

/-- Why a definition cannot be assembled. -/
inductive ConfigError where
  | missingPure (name : String)
  | missingCoerce (name : String)
  /-- The text of the options cannot be read. -/
  | options
  deriving DecidableEq

namespace ConfigError

def kind : ConfigError → String
  | missingPure _ => "MissingPure"
  | missingCoerce _ => "MissingCoerce"
  | options => "Options"

/-- The text of the error; unreadable options have none of their own. -/
def message? : ConfigError → Option String
  | missingPure name => some ("effect definition `" ++ name ++ "` has no `pure`")
  | missingCoerce name =>
    some ("effect definition `" ++ name ++ "` has no `coerce`, coercion cannot be added")
  | options => none

end ConfigError

/-- A step of assembling: it reads and extends the catalog, or is refused. -/
def Assembly (α : Type 1) : Type 1 := Catalog → Except ConfigError α × Catalog

namespace Assembly

variable {α β : Type 1}

instance : Monad Assembly where
  pure a := fun c => (.ok a, c)
  bind m f := fun c =>
    match m c with
    | (.ok a, c) => f a c
    | (.error e, c) => (.error e, c)

/-- Refuse. -/
def refuse (e : ConfigError) : Assembly α := fun c => (.error e, c)

/-- Take a number for a new brand, and go on. -/
def withBrand (name : String) (f : Brand → Assembly α) : Assembly α := fun c =>
  f ⟨c.nextBrand, name⟩ { c with nextBrand := c.nextBrand + 1 }

/-- Let the definition adopt the brand, and go on with it. -/
def adopting (b : Brand) (d : Definition) : Assembly Definition := fun c =>
  (.ok d, c.adopt b d.id)

/-- Go on with what is known of the homes of brands. -/
def readingHomes (f : (BrandId → Option DefId) → Assembly α) : Assembly α := fun c => f c.home c

end Assembly

end EffectLayers
