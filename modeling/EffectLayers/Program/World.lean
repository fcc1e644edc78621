import EffectLayers.Catalog
import EffectLayers.Program.Invocation
import EffectLayers.Program.Sequence

/-!
# The world that programs run in

A definition is alive while it is named, installed, to be installed again, in use, or held by
a function value that is still within reach of what runs; and while one that is layered on it
is alive.

## Main definitions

* `Frame`: what is installed and in use where a program stands.
* `World`: the frame, what is named, what was logged, and everything made so far.
* `World.reachable`: the function values and sequences within reach.
* `World.alive`: whether something still holds a definition.
* `Query.answer`: the answer to a request, and the world after it.
* `Scope.enter`, `Scope.leave`: the frame inside a scope and after it.

## Main statements

* `World.alive_iff`: what is alive is held, directly or by function values, or beneath such.
-/

namespace EffectLayers

/-- What is installed and in use where a program stands. -/
structure Frame where
  /-- The installed definition. -/
  ambient : Option DefId := none
  /-- The definitions to be installed again, innermost first. -/
  saved : List (Option DefId) := []
  /-- What is in use, innermost first. -/
  held : List Holding := []

/-- The state that programs run in. -/
structure World : Type 1 extends Frame where
  names : List (String × DefId)
  brands : List (String × Brand)
  log : Array Value
  nextScope : ScopeId
  nextIdentity : Identity
  functions : Array Callback
  sequences : Array Sequence

/-- Something made by a program that a value refers to. -/
inductive Reference where
  | function (id : FuncId)
  | sequence (id : SequenceId)
  deriving DecidableEq

/-- A set of references: which functions and which sequences are in it. -/
structure References where
  functions : Array Bool
  sequences : Array Bool

namespace References

def contains (rs : References) : Reference → Bool
  | .function f => rs.functions.getD f true
  | .sequence s => rs.sequences.getD s true

def insert (rs : References) : Reference → References
  | .function f => { rs with functions := rs.functions.setIfInBounds f true }
  | .sequence s => { rs with sequences := rs.sequences.setIfInBounds s true }

end References

namespace Value

mutual

/-- What a value refers to directly. -/
def references : Value → List Reference
  | unit | bool _ | int _ | str _ | mute .. => []
  | list items => referencesAll items
  | ctor _ arg => arg.references
  | func id | object _ _ id => [.function id]
  | only _ content => content.references
  | cursor _ element s _ => .sequence s :: element.references
  | signal payload _ => payload.references
  | carrier _ inner => inner.references

def referencesAll : List Value → List Reference
  | [] => []
  | v :: vs => v.references ++ referencesAll vs

end

end Value

namespace World

def empty : World where
  names := []
  brands := []
  log := #[]
  nextScope := firstNumber
  nextIdentity := 0
  functions := #[]
  sequences := #[]

/-- The definitions that are held directly. -/
def roots (w : World) : List DefId :=
  w.names.map (·.2) ++ w.ambient.toList ++ w.saved.filterMap id ++ w.held.flatMap (·.definitions)

/-- Whether one of the definitions that are held directly has a property. -/
def anyRoot (w : World) (p : DefId → Bool) : Bool :=
  w.names.any (fun n => p n.2) || w.ambient.any p || w.saved.any (fun d => d.any p) ||
    w.held.any fun h => h.definitions.any p

theorem anyRoot_eq_any (w : World) (p : DefId → Bool) : w.anyRoot p = w.roots.any p := by
  have hsaved : w.saved.any (fun d => d.any p) = (w.saved.filterMap id).any p := by
    induction w.saved with
    | nil => rfl
    | cons d ds ih => cases d <;> simp [ih]
  have hambient : w.ambient.any p = w.ambient.toList.any p := by
    cases w.ambient <;> simp
  simp only [anyRoot, roots, List.any_append, List.any_map, List.any_flatMap, hsaved, hambient,
    Function.comp_def]

/-- What a function value or a sequence refers to in turn. -/
def referencesOf (w : World) : Reference → List Reference
  | .function f => (w.functions[f]?.map fun f => Value.referencesAll f.holds.values).getD []
  | .sequence s =>
    (w.sequences[s]?.map fun s => Value.referencesAll s.references).getD []

/-- What is reached from `pending` in at most so many steps, and what was reached before. -/
def reach (w : World) : Nat → References → List Reference → References
  | 0, reached, _ => reached
  | n + 1, reached, pending =>
    match pending.dropWhile reached.contains with
    | [] => reached
    | r :: rest => w.reach n (reached.insert r) (w.referencesOf r ++ rest)

/-- The function values and sequences that are in use or logged, or that such a one refers to,
and so on. -/
def reachable (w : World) : References :=
  w.reach (w.functions.size + w.sequences.size)
    ⟨.replicate w.functions.size false, .replicate w.sequences.size false⟩
    (Value.referencesAll (w.held.flatMap (·.values) ++ w.log.toList))

/-- The definitions that are held by function values within reach. -/
def retained (w : World) : List DefId :=
  (w.functions.toList.zip w.reachable.functions.toList).flatMap fun (f, reached) =>
    if reached then f.holds.definitions else []

/-- A definition is alive while it is held or is beneath one that is. -/
def alive (c : Catalog) (w : World) (d : DefId) : Bool :=
  let covers (root : DefId) : Bool := (c.lineage root).contains d
  w.anyRoot covers || w.retained.any covers

theorem alive_iff (c : Catalog) (w : World) (d : DefId) :
    w.alive c d = true ↔ ∃ root, (root ∈ w.roots ∨ root ∈ w.retained) ∧ d ∈ c.lineage root := by
  simp only [alive, anyRoot_eq_any, Bool.or_eq_true, List.any_eq_true, List.contains_iff_mem]
  constructor
  · rintro (⟨root, h, hd⟩ | ⟨root, h, hd⟩)
    · exact ⟨root, .inl h, hd⟩
    · exact ⟨root, .inr h, hd⟩
  · rintro ⟨root, h | h, hd⟩
    · exact .inl ⟨root, h, hd⟩
    · exact .inr ⟨root, h, hd⟩

/-- Append to the log. -/
def record (w : World) (v : Value) : World := { w with log := w.log.push v }

/-- Forget a name; answers whether there was one. -/
def forget (w : World) (name : String) : Bool × World :=
  (w.names.any (·.1 == name), { w with names := w.names.filter (·.1 != name) })

/-- Give a definition a name, in place of a former one of that name. -/
def rename (w : World) (name : String) (d : DefId) : World :=
  { w with names := (name, d) :: w.names.filter (·.1 != name) }

end World

/-- The entry in the log for an item that is taken from a source. -/
def taken (v : Value) : Value := .ctor "Pull" v

/-- The answer to a request, and the world after it. -/
def Query.answer (c : Catalog) (w : World) : (q : Query) → q.Answer × World
  | current => (w.ambient, w)
  | install d => (w.ambient, { w with ambient := d })
  | alive d => (w.alive c d, w)
  | home b => (c.home b, w)
  | adopted => (fun b => (c.home b).isSome, w)
  | freshScope => (w.nextScope, { w with nextScope := w.nextScope + 1 })
  | freshIdentity => (w.nextIdentity, { w with nextIdentity := w.nextIdentity + 1 })
  | log v => ((), w.record v)
  | sequence items source =>
    (w.sequences.size, { w with sequences := w.sequences.push { items := items.toArray, source } })
  | item s position =>
    match w.sequences[s]? with
    | none => (none, w)
    | some before =>
      let (found, items, after) := before.fetch position
      (found, { w with
        sequences := w.sequences.setIfInBounds s after
        log := w.log ++ (items.map taken).toArray })
  | definition name => (w.names.lookup name, w)
  | forget name => w.forget name
  | brand name => (w.brands.lookup name, w)
  | describe d => ((c.get? d).map fun x => (x.name, Operation.which x.supplies), w)

/-- The frame inside a scope. -/
def Scope.enter (f : Frame) : Scope → Frame
  | holding h => { f with held := h :: f.held }
  | installed d => ⟨some d, f.ambient :: f.saved, { definitions := [d] } :: f.held⟩

/-- The frame after a scope that was entered from the frame `before` and has `f` at its end:
only what was installed inside it without a scope stays. -/
def Scope.leave (before f : Frame) : Scope → Frame
  | holding _ => { before with ambient := f.ambient }
  | installed _ => before

end EffectLayers
