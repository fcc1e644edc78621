import EffectLayers.Text.Ligature

/-!
# Columns of a text

A text of the first block takes a column for each character. Any other text is counted from
its end to its front, since what a character takes depends on what follows it: on the styles
that selectors ask for, and on the emoji or the ligature that it is the front of.

## Main definitions

* `Onset`: what is to be known of a text to put a character in front of it.
* `Onset.put`: the columns of that character, and the onset with it.
* `Text.columns`: the number of columns of a text.
-/

namespace EffectLayers

open Text

/-- What a text begins with. -/
inductive Head where
  | plain
  | lineFeed
  | emoji (onset : EmojiOnset)
  | ligature (onset : LigatureOnset)
  | vowel (onset : VowelOnset)
  deriving DecidableEq

namespace Head

/-- What a text begins with whose first character has nothing to do with the others. -/
def of (c : Char) : Head :=
  match LigatureOnset.of? c, VowelOnset.of? c, EmojiOnset.of? c with
  | some onset, _, _ => ligature onset
  | none, some onset, _ => vowel onset
  | none, none, some onset => emoji onset
  | none, none, none => plain

def isLigature : Head → Bool
  | ligature _ => true
  | _ => false

/-- Whether an emoji put in front is one with the text. -/
def isJoined : Head → Bool
  | emoji onset => onset.isJoined
  | _ => false

end Head

/-- The front of a text, as far as it decides the columns of a character before it. -/
structure Onset where
  head : Head := .plain
  /-- A selector asks for the emoji style of the character before it. -/
  emojiStyle : Bool := false
  /-- A selector asks for the text style of the character before it. -/
  textStyle : Bool := false
  /-- A selector asks for the wide style of a quotation mark before it. -/
  wideQuote : Bool := false

namespace Onset

/-- The onset without its head, unless the head is a ligature, which selectors do not break. -/
def selected (o : Onset) : Onset := if o.head.isLigature then o else { }

/-- The onset once its emoji style was of no use. -/
def withoutEmojiStyle (o : Onset) : Onset :=
  if o.emojiStyle then { o.selected with emojiStyle := false } else o

/-- Columns of a character of the first two blocks, and the onset with it: a carriage return
and a line feed are one. -/
def putLatin (c : Char) (o : Onset) : Int × Onset :=
  if c == '\n' then (1, { head := .lineFeed })
  else if c == '\r' && o.head == .lineFeed then (0, { })
  else (1, { })

/-- Columns of a character and the onset with it, if the character is part of the emoji, the
ligature or the vowel that the text begins with. -/
def combine? (c : Char) (o : Onset) : Option (Int × Onset) :=
  match o.head with
  | .ligature onset =>
    match onset.pass? c with
    | some onset => some (0, { o with head := .ligature onset })
    | none => (onset.put c).map fun (n, onset) =>
      (n, { head := (onset.map Head.ligature).getD .plain })
  | .emoji onset => (onset.put c).map fun (n, onset) => (n, { head := .emoji onset })
  | .vowel onset => (onset.put c).map fun (n, onset) =>
    (n, { head := (onset.map Head.vowel).getD .plain })
  | .plain | .lineFeed => none

def isCurlyQuote (c : Char) : Bool := c == '‘' || c == '’' || c == '“' || c == '”'

/-- Columns of a character that has no emoji style asked for, and the onset with it. -/
def putPlain (c : Char) (o : Onset) : Int × Onset :=
  if c.toNat ≤ 0xA0 then o.putLatin c
  else if c == '\uFE0F' then
    (0, { (if o.head.isJoined then o else o.selected) with emojiStyle := true })
  else if c == '\uFE0E' then (0, { o.selected with textStyle := true })
  else if c == '\uFE01' then (0, { o.selected with wideQuote := true })
  else if o.textStyle && textStyled.contains c then (1, { })
  else if o.wideQuote && isCurlyQuote c then (2, { })
  else
    let o := { o with textStyle := false, wideQuote := false }
    (o.combine? c).getD (charColumns c, { head := .of c })

/-- Columns of a character in front of a text, and the onset with it. -/
def put (c : Char) (o : Onset) : Int × Onset :=
  if o.emojiStyle && emojiStyled.contains c then
    (if o.head.isJoined then 0 else 2, { head := .emoji .emoji })
  else o.withoutEmojiStyle.putPlain c

end Onset

namespace Text

/-- Columns of a list of characters, and how it begins. -/
def columnsOf (cs : List Char) : Int × Onset :=
  cs.foldr (fun c (n, o) => let (m, o) := o.put c; (m + n, o)) (0, { })

/-- Whether a character is of the first block, where none takes part in a sequence. -/
def isBasic (c : Char) : Bool := c.toNat < 0x80

/-- Columns of a text. A carriage return and a line feed are one only in a text with a
character beyond the first block. -/
def columns (s : String) : Nat :=
  if s.toList.all isBasic then s.length else (columnsOf s.toList).1.toNat

end Text

end EffectLayers
