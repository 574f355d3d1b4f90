import TypeComments.Text.Basic

/-! The bytes of a text in UTF-8, and the search for a word among them. -/

namespace TypeComments
namespace Text

def bytes (t : Text) : List UInt8 := t.flatMap String.utf8EncodeChar

@[simp] theorem bytes_nil : bytes [] = [] := rfl

@[simp] theorem bytes_cons (c : Char) (t : Text) :
    bytes (c :: t) = String.utf8EncodeChar c ++ bytes t := rfl

@[simp] theorem bytes_append (a b : Text) : bytes (a ++ b) = bytes a ++ bytes b := by
  simp [bytes]

@[simp] theorem length_bytes (t : Text) : (bytes t).length = size t := by
  induction t with
  | nil => rfl
  | cons c t ih => simp [ih]

def place? (word : List UInt8) : List UInt8 → Option Nat
  | [] => if word.isEmpty then some 0 else none
  | b :: bs => if word.isPrefixOf (b :: bs) then some 0 else (place? word bs).map (· + 1)

/-- The first offset from `pos` on at which `word` stands. -/
def find? (word t : Text) (pos : Nat) : Option Nat :=
  (place? (bytes word) ((bytes t).drop pos)).map (pos + ·)

theorem le_of_find? {word t : Text} {pos start : Nat} (h : find? word t pos = some start) :
    pos ≤ start := by
  obtain ⟨n, -, rfl⟩ := Option.map_eq_some_iff.1 h
  exact Nat.le_add_right pos n

end Text
end TypeComments
