import EffectLayers.Text.Layout
import EffectLayers.Text.Quoted
import EffectLayers.Value.Basic

/-!
# Values as text

Two written forms. The display form is laid out on a page of 80 columns; the structural form
names every constructor and stays on one line. The structural form of a carrier says whether
its brand was adopted by a definition, so both forms depend on which brands were.

## Main definitions

* `Value.structural`: the structural form.
* `Value.doc`, `Value.display`: the display form.
-/

namespace EffectLayers

/-- A structural form `name { fields }`. -/
def record (name : String) (fields : List String) : String :=
  name ++ " \x7b " ++ ", ".intercalate fields ++ " \x7d"

/-- The structural form of a list. -/
def bracketed (items : List String) : String := "[" ++ ", ".intercalate items ++ "]"

def Tag.structural : Tag → String
  | exception => "Exception"
  | scope id => "Scope(ScopeTag(" ++ toString id ++ "))"

def Tag.text : Tag → String
  | exception => "exception"
  | scope id => "scope#" ++ toString id

/-- The structural form of a brand; `adopted` says whether a definition adopted it. -/
def Brand.structural (adopted : Bool) (b : Brand) : String :=
  record "Brand" ["id: BrandId(" ++ toString b.id ++ ")", "name: " ++ Text.quoted b.name,
    "home: " ++ record "RefCell" ["value: " ++ if adopted then "Some((Weak))" else "None"]]

namespace Value

variable (adopted : BrandId → Bool)

mutual

/-- The structural form. -/
def structural : Value → String
  | unit => "Triv(Triv)"
  | bool b => "Bool(" ++ toString b ++ ")"
  | int i => "Int(" ++ toString i ++ ")"
  | str s => "Str(" ++ Text.quoted s ++ ")"
  | list items => "List(" ++ bracketed (structuralAll items) ++ ")"
  | ctor name arg =>
    "Ctor(Ctor(CtorName(" ++ Text.quoted name ++ "), " ++ arg.structural ++ "))"
  | func _ => "Func(Func)"
  | object _ text _ => "Object(" ++ text ++ ")"
  | only _ content => "Object(Only(" ++ content.structural ++ "))"
  | mute _ label => "Object(Mute(" ++ Text.quoted label ++ "))"
  | cursor _ element _ _ =>
    "Cursor(" ++ record "Cursor" ["value: " ++ element.structural, ".."] ++ ")"
  | signal payload tag =>
    "Unwind(" ++ record "Unwind" ["payload: " ++ payload.structural,
      "tag: " ++ tag.structural] ++ ")"
  | carrier brand inner =>
    "Carrier(" ++ record "Carrier" ["brand: " ++ brand.structural (adopted brand.id),
      "inner: " ++ inner.structural] ++ ")"

def structuralAll : List Value → List String
  | [] => []
  | v :: vs => v.structural :: structuralAll vs

end

/-- What an object says of itself. -/
def objectText : Value → String
  | object _ text _ => text
  | only _ content => "Only(" ++ content.structural adopted ++ ")"
  | mute _ label => "Mute(" ++ Text.quoted label ++ ")"
  | v => v.structural adopted

mutual

/-- The display form as a document. -/
def doc : Value → Doc
  | unit => .text "()"
  | bool b => .text (toString b)
  | int i => .text (toString i)
  | str s => .text (Text.quoted s)
  | list items => .delimited "[" (docAll items) "]"
  | ctor name arg => .text name ++ .delimited "(" [arg.doc] ")"
  | func _ => .text "<fn>"
  | object id text method => .text ("<" ++ objectText adopted (object id text method) ++ ">")
  | only id content => .text ("<" ++ objectText adopted (only id content) ++ ">")
  | mute id label => .text ("<" ++ objectText adopted (mute id label) ++ ">")
  | cursor _ element _ _ => .text "cursor@" ++ element.doc
  | signal payload tag =>
    .text ("unwind[" ++ tag.text ++ "]") ++ .delimited "(" [payload.doc] ")"
  | carrier brand inner => .text brand.text ++ .delimited "\x7b" [inner.doc] "\x7d"

def docAll : List Value → List Doc
  | [] => []
  | v :: vs => v.doc :: docAll vs

end

/-- Columns of the page that values are displayed on. -/
def pageWidth : Nat := 80

/-- The display form. -/
def display (v : Value) : String := (v.doc adopted).render pageWidth

end Value

end EffectLayers
