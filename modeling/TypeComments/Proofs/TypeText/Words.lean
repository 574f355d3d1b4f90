import Mathlib
import TypeComments.Proofs.Text.Bytes
import TypeComments.TypeText.ReadonlyArray

/-! Words of type texts, seen as bytes. A word is made of bytes below 128 and ends before any other
byte. Since every byte of a character of several bytes is of that other kind, it does not matter
whether a text is searched by characters or by bytes. -/

namespace TypeComments
namespace TypeText

def isWordByte (b : UInt8) : Bool :=
  (48 ≤ b && b ≤ 57) || (65 ≤ b && b ≤ 90) || (97 ≤ b && b ≤ 122) || b == 95

def wordCanStartAfter (before : List UInt8) : Bool := !before.getLast?.any isWordByte

/-- Does `word` stand somewhere in the text, with no word byte on either side of it? -/
def StandsIn (word t : Text) : Prop :=
  ∃ before after, Text.bytes t = before ++ Text.bytes word ++ after ∧
    wordCanStartAfter before = true ∧ after.head?.any isWordByte = false

theorem isWordByte_ofNat {n : Nat} (h : n < 128) :
    isWordByte (UInt8.ofNat n) = isWordChar (Char.ofNat n) := by
  have hall : ∀ n < 128, isWordByte (UInt8.ofNat n) = isWordChar (Char.ofNat n) := by decide
  exact hall n h

theorem isWordByte_of_le {b : UInt8} (h : 128 ≤ b.toNat) : isWordByte b = false := by
  rw [← Bool.not_eq_true]
  intro hb
  simp only [isWordByte, Bool.or_eq_true, Bool.and_eq_true, decide_eq_true_eq, beq_iff_eq,
    UInt8.le_iff_toNat_le, UInt8.reduceToNat] at hb
  rcases hb with hb | rfl
  · omega
  · exact absurd h (by decide)

theorem isWordChar_of_le {c : Char} (h : 128 ≤ c.toNat) : isWordChar c = false := by
  rw [← Bool.not_eq_true]
  intro hc
  simp only [isWordChar, Char.isAlphanum, Char.isAlpha, Char.isUpper, Char.isLower, Char.isDigit,
    Bool.or_eq_true, Bool.and_eq_true, decide_eq_true_eq, ge_iff_le, UInt32.le_iff_toNat_le,
    Char.reduceVal, UInt32.reduceToNat] at hc
  have hval : c.val.toNat = c.toNat := rfl
  rcases hc with hc | rfl
  · omega
  · exact absurd h (by decide)

theorem isWordByte_utf8EncodeChar {c : Char} {b : UInt8}
    (h : (String.utf8EncodeChar c).head? = some b ∨ (String.utf8EncodeChar c).getLast? = some b) :
    isWordByte b = isWordChar c := by
  rcases Text.utf8EncodeChar_cases c with ⟨hsmall, hc⟩ | ⟨hlarge, hall⟩
  · obtain rfl : UInt8.ofNat c.toNat = b := by
      rw [hc] at h
      simpa using h
    rw [isWordByte_ofNat hsmall, Char.ofNat_toNat]
  · have hmem : b ∈ String.utf8EncodeChar c :=
      h.elim List.mem_of_head? List.mem_of_getLast?
    rw [isWordByte_of_le (hall b hmem), isWordChar_of_le hlarge]

theorem any_getLast?_bytes (t : Text) :
    (Text.bytes t).getLast?.any isWordByte = t.getLast?.any isWordChar := by
  rcases List.eq_nil_or_concat' t with rfl | ⟨t, c, rfl⟩
  · rfl
  · have hne : String.utf8EncodeChar c ≠ [] := String.utf8EncodeChar_ne_nil
    have hlast := List.getLast?_eq_some_getLast hne
    rw [Text.bytes_append, Text.bytes_cons, Text.bytes_nil, List.append_nil,
      List.getLast?_append_of_ne_nil _ hne, hlast, List.getLast?_concat]
    exact isWordByte_utf8EncodeChar (Or.inr hlast)

theorem any_head?_bytes (t : Text) :
    (Text.bytes t).head?.any isWordByte = t.head?.any isWordChar := by
  cases t with
  | nil => rfl
  | cons c t =>
    have hne : String.utf8EncodeChar c ≠ [] := String.utf8EncodeChar_ne_nil
    have hhead := List.head?_eq_some_head hne
    rw [Text.bytes_cons, List.head?_append_of_ne_nil _ hne, hhead, List.head?_cons]
    exact isWordByte_utf8EncodeChar (Or.inl hhead)

theorem startsWithWord_iff {word t : Text} {previous : Option Char} :
    startsWithWord word previous t = true ↔
      wordCanStart previous = true ∧
        ∃ rest, t = word ++ rest ∧ rest.head?.any isWordChar = false := by
  rw [startsWithWord, Bool.and_eq_true]
  refine and_congr_right fun _ => ?_
  cases h : Text.strip? word t with
  | none =>
    simp only [Bool.false_eq_true, false_iff]
    rintro ⟨rest, rfl, -⟩
    simp at h
  | some rest =>
    obtain rfl := Text.strip?_eq_some_iff.1 h
    simp

theorem holdsWordAfter_iff {word t : Text} {previous : Option Char} :
    holdsWordAfter word previous t = true ↔
      ∃ before after, t = before ++ word ++ after ∧
        wordCanStart (before.getLast?.or previous) = true ∧
        after.head?.any isWordChar = false := by
  induction t generalizing previous with
  | nil =>
    rw [holdsWordAfter, startsWithWord_iff]
    constructor
    · rintro ⟨hstart, rest, ht, hrest⟩
      exact ⟨[], rest, ht, hstart, hrest⟩
    · rintro ⟨before, after, ht, hstart, hafter⟩
      obtain ⟨hfront, -⟩ := List.append_eq_nil_iff.1 ht.symm
      obtain ⟨rfl, -⟩ := List.append_eq_nil_iff.1 hfront
      exact ⟨hstart, after, ht, hafter⟩
  | cons c t ih =>
    rw [holdsWordAfter, Bool.or_eq_true, startsWithWord_iff, ih]
    constructor
    · rintro (⟨hstart, rest, ht, hrest⟩ | ⟨before, after, rfl, hstart, hafter⟩)
      · exact ⟨[], rest, ht, hstart, hrest⟩
      · exact ⟨c :: before, after, rfl, by simpa [List.getLast?_cons] using hstart, hafter⟩
    · rintro ⟨before, after, ht, hstart, hafter⟩
      cases before with
      | nil => exact Or.inl ⟨hstart, after, ht, hafter⟩
      | cons d before =>
        obtain ⟨rfl, rfl⟩ := List.cons.inj ht
        exact Or.inr ⟨before, after, rfl, by simpa [List.getLast?_cons] using hstart, hafter⟩

/-- The search for a word in characters finds it where it stands in bytes, if it starts with a
character of one byte. -/
theorem holdsWord_iff {word t : Text} (h : word.head?.any (·.toNat < 128) = true) :
    holdsWord word t = true ↔ StandsIn word t := by
  rw [holdsWord, holdsWordAfter_iff]
  constructor
  · rintro ⟨before, after, rfl, hstart, hafter⟩
    refine ⟨Text.bytes before, Text.bytes after, by simp, ?_, ?_⟩
    · rw [wordCanStartAfter, any_getLast?_bytes]
      simpa [wordCanStart] using hstart
    · rw [any_head?_bytes, hafter]
  · rintro ⟨before, after, ht, hstart, hafter⟩
    obtain ⟨c, w, rfl, hc⟩ : ∃ c w, word = c :: w ∧ c.toNat < 128 := by
      cases word with
      | nil => cases h
      | cons c w => exact ⟨c, w, rfl, by simpa using h⟩
    obtain ⟨a, r, rfl, rfl, rfl⟩ := Text.exists_of_bytes_eq_infix hc ht
    rw [wordCanStartAfter, any_getLast?_bytes] at hstart
    rw [any_head?_bytes] at hafter
    exact ⟨a, r, rfl, by simpa [wordCanStart] using hstart, hafter⟩

end TypeText
end TypeComments
