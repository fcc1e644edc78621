import EffectLayers.Text.Emoji
import EffectLayers.Text.Width

/-!
# Columns of ligatures

In some scripts neighbouring letters are drawn as one. The letters of a ligature take the
columns of its drawing, which are counted at its end.

## Main definitions

* `LigatureOnset`: how the ligature at the front of a text may begin.
* `LigatureOnset.put`: what a character takes in front of it.
-/

namespace EffectLayers

namespace Text

/-- Arabic letters of the shape of alef. -/
def arabicAlef : CharClass := ⟨[
  0x622, 0x624, 0x625, 0x626, 0x627, 0x628, 0x671, 0x674, 0x675, 0x676, 0x773, 0x775, 0x870,
  0x883]⟩

/-- Arabic letters of the shape of lam. -/
def arabicLam : CharClass := ⟨[
  0x644, 0x645, 0x6B5, 0x6B9, 0x76A, 0x76B, 0x8A6, 0x8A7, 0x8C7, 0x8C8]⟩

/-- Characters without columns that come between lam and alef all the same. -/
def arabicBreaks : CharClass := ⟨[
  0x605, 0x606, 0x890, 0x892, 0x8E2, 0x8E3, 0x9BE, 0x9BF, 0x9D7, 0x9D8, 0xB3E, 0xB3F, 0xB57, 0xB58,
  0xBBE, 0xBBF, 0xBD7, 0xBD8, 0xCC0, 0xCC1, 0xCC2, 0xCC3, 0xCC7, 0xCC9, 0xCCA, 0xCCC, 0xCD5, 0xCD7,
  0xD3E, 0xD3F, 0xD4E, 0xD4F, 0xD57, 0xD58, 0xDCF, 0xDD0, 0xDDF, 0xDE0, 0x1160, 0x1200, 0x1715,
  0x1716, 0x1734, 0x1735, 0x180E, 0x180F, 0x1B35, 0x1B36, 0x1B3B, 0x1B3C, 0x1B3D, 0x1B3E, 0x1B43,
  0x1B45, 0x1BAA, 0x1BAB, 0x1BF2, 0x1BF4, 0x200C, 0x200E, 0x2065, 0x206A, 0x302E, 0x3030, 0x3164,
  0x3165, 0xA8FA, 0xA8FB, 0xA953, 0xA954, 0xA9C0, 0xA9C1, 0xD7B0, 0xD7C7, 0xD7CB, 0xD7FC, 0xFFA0,
  0xFFA1, 0xFFF0, 0xFFF9, 0x111C0, 0x111C1, 0x111C2, 0x111C4, 0x11235, 0x11236, 0x1133E, 0x1133F,
  0x1134D, 0x1134E, 0x11357, 0x11358, 0x113B8, 0x113B9, 0x113C2, 0x113C3, 0x113C5, 0x113C6,
  0x113C7, 0x113CA, 0x113CF, 0x113D0, 0x113D1, 0x113D2, 0x114B0, 0x114B1, 0x114BD, 0x114BE,
  0x115AF, 0x115B0, 0x116B6, 0x116B7, 0x11930, 0x11931, 0x1193D, 0x1193E, 0x1193F, 0x11940,
  0x11941, 0x11942, 0x11A84, 0x11A8A, 0x11D46, 0x11D47, 0x11F02, 0x11F03, 0x11F41, 0x11F42,
  0x16FF0, 0x16FF2, 0x1D165, 0x1D167, 0x1D16D, 0x1D173, 0xE0000, 0xE0001, 0xE0002, 0xE0020,
  0xE0080, 0xE0100, 0xE01F0, 0xE1000]⟩

/-- Khmer letters that can be drawn below another one. -/
def khmerConsonant : CharClass := ⟨[
  0x1780, 0x1783, 0x1784, 0x1788, 0x1789, 0x178D, 0x178E, 0x1794, 0x1795, 0x1799, 0x179B, 0x179E,
  0x17A0, 0x17A1, 0x17A2, 0x17A3, 0x17A7, 0x17A8, 0x17AB, 0x17AD, 0x17AF, 0x17B0]⟩

/-- Arabic letters join across marks. -/
def isArabicMark (c : Char) : Bool :=
  0xA0 < c.toNat && isZeroWidth c && !arabicBreaks.contains c

def isTifinagh (c : Char) : Bool := 0x2D31 ≤ c.toNat && c.toNat ≤ 0x2D65 || c == '\u2D6F'

/-- The tones of Lisu that another tone may follow in one column. -/
def isLisuTone (c : Char) : Bool := 0xA4F8 ≤ c.toNat && c.toNat ≤ 0xA4FB

/-- Characters that may stand within a ligature without a change to it. -/
def isLigatureTransparent (c : Char) : Bool :=
  c == '\u034F' || c == '\u17B4' || c == '\u17B5' || c == '\u180B' || c == '\u180C' ||
    c == '\u180D' || c == '\u180F' || 0xFE00 ≤ c.toNat && c.toNat ≤ 0xFE0F ||
    0xE0100 ≤ c.toNat && c.toNat ≤ 0xE01EF

end Text

open Text

/-- How the ligature at the front of a text may begin. `joined` says that a joiner stands
before the letter. -/
inductive LigatureOnset where
  | arabicAlef
  | hebrewLamed (joined : Bool)
  | bugineseYa (joined : Bool)
  /-- With the vowel sign and `ya`. -/
  | bugineseVowel
  | tifinagh (joined : Bool)
  /-- With the Tifinagh joiner and a letter. -/
  | tifinaghJoiner
  | lisuTone
  | oldTurkicOrkhon (joined : Bool)
  | khmerConsonant
  deriving DecidableEq

namespace LigatureOnset

/-- How a ligature may begin that ends in a character. -/
def of? (c : Char) : Option LigatureOnset :=
  if c == '\u05DC' then some (hebrewLamed false)
  else if Text.arabicAlef.contains c then some arabicAlef
  else if Text.khmerConsonant.contains c then some khmerConsonant
  else if c == '\u1A10' then some (bugineseYa false)
  else if isTifinagh c then some (tifinagh false)
  else if c == '\uA4FC' || c == '\uA4FD' then some lisuTone
  else if c == '𐰃' then some (oldTurkicOrkhon false)
  else none

/-- A joiner put in front. -/
def join : LigatureOnset → LigatureOnset
  | hebrewLamed _ => hebrewLamed true
  | bugineseYa _ => bugineseYa true
  | tifinagh _ => tifinagh true
  | oldTurkicOrkhon _ => oldTurkicOrkhon true
  | onset => onset

/-- A joiner or a transparent character put in front; Arabic letters join by marks of their
own. -/
def pass? (c : Char) : LigatureOnset → Option LigatureOnset
  | arabicAlef => none
  | onset =>
    if c == zeroWidthJoiner then some onset.join
    else if isLigatureTransparent c then some onset
    else none

/-- Columns of a letter before a ligature and how both begin, if the letter is part of it. -/
def put (c : Char) : LigatureOnset → Option (Int × Option LigatureOnset)
  | arabicAlef =>
    if arabicLam.contains c then some (0, none)
    else if isArabicMark c then some (0, some arabicAlef)
    else none
  | hebrewLamed true => if c == '\u05D0' then some (0, none) else none
  | bugineseYa true => if c == '\u1A17' then some (0, some bugineseVowel) else none
  | bugineseVowel => if c == '\u1A15' then some (0, none) else none
  | tifinagh joined =>
    if c == '\u2D7F' then some (1, some tifinaghJoiner)
    else if joined && isTifinagh c then some (0, none)
    else none
  | tifinaghJoiner => if isTifinagh c then some (-1, none) else none
  | lisuTone => if isLisuTone c then some (0, none) else none
  | oldTurkicOrkhon true => if c == '𐰲' then some (0, none) else none
  | khmerConsonant => if c == '\u17D2' then some (-1, none) else none
  | _ => none

end LigatureOnset

/-- How the composed Kirat Rai vowel at the front of a text may begin. -/
inductive VowelOnset where
  | e
  | ai
  deriving DecidableEq

namespace VowelOnset

/-- How a vowel may begin that ends in a character. -/
def of? (c : Char) : Option VowelOnset :=
  if c.toNat == 0x16D67 then some e
  else if c.toNat == 0x16D68 then some ai
  else none

/-- Columns of a vowel sign before a vowel and how both begin, if the sign is part of it. -/
def put (c : Char) : VowelOnset → Option (Int × Option VowelOnset)
  | e =>
    if c.toNat == 0x16D63 || c.toNat == 0x16D69 then some (0, none)
    else if c.toNat == 0x16D67 then some (0, some ai)
    else if c.toNat == 0x16D68 then some (1, some e)
    else none
  | ai => if c.toNat == 0x16D63 then some (0, none) else none

end VowelOnset

end EffectLayers
