/-!
# Values

What programs compute with. Functions, objects and cursors have an identity of their own;
what a function does and what a cursor has yet to hand out is kept by the world that
programs run in.

## Main definitions

* `Value`: values.
* `Brand`, `Tag`: the identity of a carrier and of an unwind signal.
* `Value.eq`: equality of values, by identity for functions, objects, cursors and brands.
-/

namespace EffectLayers

/-- Identity of one carrier instantiation. -/
abbrev BrandId := Nat

/-- Identity of one dynamic `block` invocation. -/
abbrev ScopeId := Nat

/-- Identity of an effect definition. -/
abbrev DefId := Nat

/-- Identity of a function value. -/
abbrev FuncId := Nat

/-- Identity of a pull sequence. -/
abbrev SequenceId := Nat

/-- Identity of an object or of a cursor. -/
abbrev Identity := Nat

/-- The mark that one carrier instantiation leaves on its values. -/
structure Brand where
  id : BrandId
  name : String
  deriving DecidableEq, Inhabited

namespace Brand

/-- Two brands are the same when their identities are. -/
def same (a b : Brand) : Bool := a.id == b.id

@[simp] theorem same_self (b : Brand) : b.same b = true := by simp [same]

/-- The name of a brand with its number. -/
def text (b : Brand) : String := b.name ++ "#" ++ toString b.id

end Brand

/-- What a pending transfer of control is addressed to. -/
inductive Tag where
  /-- Any handler: shared by every raised exception. -/
  | exception
  /-- One `block` invocation. -/
  | scope (id : ScopeId)
  deriving DecidableEq, Inhabited

/-- Values. -/
inductive Value where
  | unit
  | bool (b : Bool)
  | int (i : Int64)
  | str (s : String)
  | list (items : List Value)
  /-- `name(arg)`. -/
  | ctor (name : String) (arg : Value)
  | func (id : FuncId)
  /-- An object that brings its own bind along: a function of the object and a callback. -/
  | object (id : Identity) (text : String) (method : FuncId)
  /-- An object whose bind gives a single result. -/
  | only (id : Identity) (content : Value)
  /-- An object without methods. -/
  | mute (id : Identity) (label : String)
  /-- A position in a pull sequence, with the element there. -/
  | cursor (id : Identity) (element : Value) (sequence : SequenceId) (position : Nat)
  /-- A pending transfer of control. -/
  | signal (payload : Value) (tag : Tag)
  /-- An effect value packed by a carrier. -/
  | carrier (brand : Brand) (inner : Value)
  deriving Inhabited

namespace Value

/-- Whether the value is a pending transfer of control. -/
def isSignal : Value → Bool
  | signal .. => true
  | _ => false

/-- Whether the value is a raised exception. -/
def isException : Value → Bool
  | signal _ .exception => true
  | _ => false

def isUnit : Value → Bool
  | unit => true
  | _ => false

def isList : Value → Bool
  | list _ => true
  | _ => false

/-- The argument, if the value is the constructor `name`. -/
def arg? (v : Value) (name : String) : Option Value :=
  match v with
  | ctor n arg => if n = name then some arg else none
  | _ => none

/-- The payload, if the value is a signal addressed to `tag`. -/
def caught? (v : Value) (tag : Tag) : Option Value :=
  match v with
  | signal payload t => if t = tag then some payload else none
  | _ => none

mutual

/-- Equality: by structure for data, by identity for functions, objects and brands, by
identity and element for cursors. -/
def eq : Value → Value → Bool
  | unit, unit => true
  | bool a, bool b => a == b
  | int a, int b => a == b
  | str a, str b => a == b
  | list as, list bs => eqAll as bs
  | ctor n a, ctor m b => n == m && eq a b
  | func a, func b => a == b
  | object a _ _, object b _ _ => a == b
  | only a _, only b _ => a == b
  | mute a _, mute b _ => a == b
  | cursor i a _ _, cursor j b _ _ => eq a b && i == j
  | signal a t, signal b u => eq a b && t == u
  | carrier p a, carrier q b => p.same q && eq a b
  | _, _ => false

/-- Equality item by item. -/
def eqAll : List Value → List Value → Bool
  | [], [] => true
  | a :: as, b :: bs => eq a b && eqAll as bs
  | _, _ => false

end

instance : BEq Value := ⟨eq⟩

mutual

theorem eq_self : (v : Value) → eq v v = true
  | unit => by simp [eq]
  | bool _ => by simp [eq]
  | int _ => by simp [eq]
  | str _ => by simp [eq]
  | list items => by simp [eq, eqAll_self items]
  | ctor _ arg => by simp [eq, eq_self arg]
  | func _ => by simp [eq]
  | object .. => by simp [eq]
  | only .. => by simp [eq]
  | mute .. => by simp [eq]
  | cursor _ element _ _ => by simp [eq, eq_self element]
  | signal payload _ => by simp [eq, eq_self payload]
  | carrier _ inner => by simp [eq, eq_self inner]

theorem eqAll_self : (vs : List Value) → eqAll vs vs = true
  | [] => by simp [eqAll]
  | v :: vs => by simp [eqAll, eq_self v, eqAll_self vs]

end

instance : ReflBEq Value := ⟨eq_self _⟩

end Value

end EffectLayers
