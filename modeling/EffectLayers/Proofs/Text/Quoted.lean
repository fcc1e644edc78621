import EffectLayers.Text.Quoted
import EffectLayers.Toml.Text
import Mathlib.Data.List.TakeDrop

/-!
# Quoted texts are read back

What a quoted text holds is read from it, whatever follows: no quote in it ends it, and no written
character is the beginning of another one.

## Main definitions

* `Text.unescape?`, `Text.character?`, `Text.unquote?`: what is read from a written character, and
  from a quoted text.

## Main statements

* `Text.character?_escape`: a written character is read back.
* `Text.unquote?_escaped`: so is a quoted text.
-/

namespace EffectLayers.Text

/-- Where what follows does not go on with such characters, they are all of the front. -/
theorem span_append {p : Char → Bool} {cs : List Char} (hcs : ∀ c ∈ cs, p c = true)
    (rest : List Char) (hrest : ∀ c ∈ rest.head?, p c = false) :
    (cs ++ rest).span p = (cs, rest) := by
  have hstop : rest.takeWhile p = [] ∧ rest.dropWhile p = rest := by
    cases rest with
    | nil => exact ⟨rfl, rfl⟩
    | cons c rest => simp [hrest c rfl]
  rw [List.span_eq_takeWhile_dropWhile, List.takeWhile_append_of_pos hcs,
    List.dropWhile_append_of_pos hcs, hstop.1, hstop.2, List.append_nil]

/-! ## Characters -/

/-- The character of an escape, read after its backslash, and what follows it. -/
def unescape? : List Char → Option (Char × List Char)
  | '0' :: rest => some ('\x00', rest)
  | 't' :: rest => some ('\t', rest)
  | 'n' :: rest => some ('\n', rest)
  | 'r' :: rest => some ('\r', rest)
  | '"' :: rest => some ('"', rest)
  | '\\' :: rest => some ('\\', rest)
  | 'u' :: '\x7b' :: rest =>
    let (digits, rest) := rest.span (· != '\x7d')
    (Toml.codePoint? digits).map (·, rest.drop 1)
  | _ => none

/-- A written character at the front, and what follows it. -/
def character? : List Char → Option (Char × List Char)
  | '\\' :: rest => unescape? rest
  | c :: rest => some (c, rest)
  | [] => none

/-- Hexadecimal digits are read back to their number. -/
theorem foldlM_toDigits (n : Nat) :
    (Nat.toDigits 16 n).foldlM (fun n c => (Toml.hexDigit? c).map (16 * n + ·)) 0 = some n := by
  have hdigit : ∀ d < 16, Toml.hexDigit? (Nat.digitChar d) = some d := by decide
  induction n using Nat.strongRecOn with
  | ind n ih =>
    by_cases hn : n < 16
    · rw [Nat.toDigits_of_lt_base hn]
      simp [hdigit n hn]
    · have hmod : n % 16 < 16 := Nat.mod_lt n (by decide)
      have hsplit : Nat.toDigits 16 n = Nat.toDigits 16 (n / 16) ++ [Nat.digitChar (n % 16)] := by
        rw [← Nat.toDigits_of_lt_base hmod,
          Nat.toDigits_append_toDigits (by decide) (by omega) hmod, Nat.div_add_mod]
      rw [hsplit, List.foldlM_append, ih (n / 16) (by omega)]
      simp [hdigit _ hmod, Nat.div_add_mod]

theorem isSome_hexDigit?_of_foldlM {ds : List Char} {init n : Nat}
    (h : ds.foldlM (fun n c => (Toml.hexDigit? c).map (16 * n + ·)) init = some n) :
    ∀ d ∈ ds, (Toml.hexDigit? d).isSome = true := by
  induction ds generalizing init with
  | nil => simp
  | cons d ds ih =>
    obtain ⟨m, hm, hds⟩ := Option.bind_eq_some_iff.mp ((List.foldlM_cons ..).symm.trans h)
    obtain ⟨k, hk, -⟩ := Option.map_eq_some_iff.mp hm
    intro e he
    rcases List.mem_cons.mp he with rfl | he
    · rw [hk]
      rfl
    · exact ih hds e he

theorem unescape?_codePoint (c : Char) (rest : List Char) :
    unescape? ((codePointEscape c).tail ++ rest) = some (c, rest) := by
  have hbrace : ∀ d ∈ Nat.toDigits 16 c.toNat, (d != '\x7d') = true := by
    intro d hd
    have hsome := isSome_hexDigit?_of_foldlM (foldlM_toDigits c.toNat) d hd
    refine bne_iff_ne.mpr ?_
    rintro rfl
    exact absurd hsome (by decide)
  have hspan := span_append hbrace ('\x7d' :: rest) (by simp)
  have hvalid : c.toNat.isValidChar := c.valid
  have hcode : Toml.codePoint? (Nat.toDigits 16 c.toNat) = some c := by
    simp [Toml.codePoint?, foldlM_toDigits, hvalid]
  change unescape? ('u' :: '\x7b' :: (Nat.toDigits 16 c.toNat ++ ['\x7d'] ++ rest)) = _
  rw [unescape?, List.append_assoc, List.singleton_append, hspan]
  simp [hcode]

/-- A written character is read back. -/
theorem character?_escape (c : Char) (rest : List Char) :
    character? (escape c ++ rest) = some (c, rest) := by
  unfold escape
  split_ifs with h0 ht hn hr hquote hslash hplain
  · rw [h0]; rfl
  · rw [ht]; rfl
  · rw [hn]; rfl
  · rw [hr]; rfl
  · rw [hquote]; rfl
  · rw [hslash]; rfl
  · rw [List.singleton_append, character?]
    exact hslash
  · exact unescape?_codePoint c rest

/-- A written character begins with no quote. -/
theorem escape_head (c : Char) : ∃ d ds, escape c = d :: ds ∧ d ≠ '"' := by
  unfold escape
  split_ifs with h0 ht hn hr hquote hslash hplain
  all_goals exact ⟨_, _, rfl, by first | decide | exact hquote⟩

/-! ## Texts -/

/-- The rest of a quoted text of at most so many characters, and what follows its quote. -/
def unquote? : Nat → List Char → Option (List Char × List Char)
  | _, '"' :: rest => some ([], rest)
  | n + 1, cs => do
    let (c, rest) ← character? cs
    let (cs, rest) ← unquote? n rest
    return (c :: cs, rest)
  | 0, _ => none

/-- A quoted text is read back. -/
theorem unquote?_escaped {cs : List Char} {n : Nat} (hn : cs.length ≤ n) (rest : List Char) :
    unquote? n (cs.flatMap escape ++ '"' :: rest) = some (cs, rest) := by
  induction cs generalizing n with
  | nil =>
    cases n <;> rfl
  | cons c cs ih =>
    obtain ⟨n, rfl⟩ : ∃ m, n = m + 1 := ⟨n - 1, by simp at hn; omega⟩
    have hrest := ih (n := n) (by simpa using hn)
    obtain ⟨d, ds, hescape, hd⟩ := escape_head c
    rw [List.flatMap_cons, List.append_assoc, unquote?, character?_escape]
    · simp [hrest]
    · rw [hescape]
      exact fun _ h => hd (List.cons.inj h).1

end EffectLayers.Text
