import EffectLayers.Text.Printable

/-!
# Quoted texts

A text between double quotes, on one line: the quote, the backslash and the characters
without a visible form of their own are written as escapes.

## Main definitions

* `Text.escape`: how one character is written.
* `Text.quoted`: a text between its quotes.
-/

namespace EffectLayers.Text

/-- The lower-case hexadecimal escape of a character, without padding. -/
def codePointEscape (c : Char) : List Char :=
  ['\\', 'u', '\x7b'] ++ Nat.toDigits 16 c.toNat ++ ['\x7d']

/-- How a character is written between double quotes. -/
def escape (c : Char) : List Char :=
  if c = '\x00' then ['\\', '0']
  else if c = '\t' then ['\\', 't']
  else if c = '\n' then ['\\', 'n']
  else if c = '\r' then ['\\', 'r']
  else if c = '"' then ['\\', '"']
  else if c = '\\' then ['\\', '\\']
  else if isPlain c then [c]
  else codePointEscape c

/-- The characters of a quoted text, its quotes included. -/
def quotedChars (cs : List Char) : List Char :=
  '"' :: (cs.flatMap escape ++ ['"'])

/-- A text between its quotes. -/
def quoted (s : String) : String := String.ofList (quotedChars s.toList)

end EffectLayers.Text
