import TypeComments.Text.Basic

/-! Two spellings of a read-only array type: `ReadOnlyArrayOf<T>` or `ReadonlyArray<T>` in the
expected text stands for `readonly T[]` in the actual one, nested to any depth. The two texts are
read side by side. At each point they go on with the same character, or a read-only array opens on
both sides, or one closes. -/

namespace TypeComments
namespace TypeText

def isWordChar (c : Char) : Bool := c.isAlphanum || c = '_'

/-- A word can start after `previous`, the character before this point if there is one. -/
def wordCanStart (previous : Option Char) : Bool := !previous.any isWordChar

def startsWithWord (word : Text) (previous : Option Char) (t : Text) : Bool :=
  wordCanStart previous &&
    match Text.strip? word t with
    | some rest => !rest.head?.any isWordChar
    | none => false

/-- Does `word` stand somewhere in a text that comes after `previous`? -/
def holdsWordAfter (word : Text) (previous : Option Char) : Text → Bool
  | [] => startsWithWord word previous []
  | c :: t => startsWithWord word previous (c :: t) || holdsWordAfter word (some c) t

def holdsWord (word t : Text) : Bool := holdsWordAfter word none t

def qualifier : Text := "readonly ".toList

def openers : List Text := ["ReadOnlyArrayOf<".toList, "ReadonlyArray<".toList]

/-- Both texts after the opening of a read-only array, where one opens. The first two arguments are
the characters before this point in either text. -/
def opening? (previousA previousE : Option Char) (actual expected : Text) : Option (Text × Text) :=
  if wordCanStart previousA && wordCanStart previousE then
    (Text.strip? qualifier actual).bind fun a =>
      (openers.findSome? (Text.strip? · expected)).map fun e => (a, e)
  else none

def closing? (depth : Nat) (actual expected : Text) : Option (Text × Text) :=
  if depth = 0 then none
  else (Text.strip? "[]".toList actual).bind fun a =>
    (Text.strip? ">".toList expected).map fun e => (a, e)

theorem length_opening? {p q : Option Char} {actual expected a e : Text}
    (h : opening? p q actual expected = some (a, e)) : a.length < actual.length := by
  unfold opening? at h
  split at h
  · obtain ⟨a', ha, he⟩ := Option.bind_eq_some_iff.1 h
    obtain ⟨e', -, heq⟩ := Option.map_eq_some_iff.1 he
    obtain ⟨rfl, rfl⟩ := Prod.mk.inj heq
    exact Text.length_lt_of_strip? ha (by decide)
  · simp at h

theorem length_closing? {depth : Nat} {actual expected a e : Text}
    (h : closing? depth actual expected = some (a, e)) : a.length < actual.length := by
  unfold closing? at h
  split at h
  · simp at h
  · obtain ⟨a', ha, he⟩ := Option.bind_eq_some_iff.1 h
    obtain ⟨e', -, heq⟩ := Option.map_eq_some_iff.1 he
    obtain ⟨rfl, rfl⟩ := Prod.mk.inj heq
    exact Text.length_lt_of_strip? ha (by decide)

/-- Read both texts to their ends, with `depth` read-only arrays open. A shared character is taken
first, then the end of an array, then the opening of one. -/
def alignFrom (depth : Nat) (previousA previousE : Option Char) (actual expected : Text) : Bool :=
  match actual, expected with
  | [], [] => depth == 0
  | a :: as, e :: es =>
    if a = e then alignFrom depth (some a) (some e) as es
    else
      match hc : closing? depth (a :: as) (e :: es) with
      | some (as', es') => alignFrom (depth - 1) (some ']') (some '>') as' es'
      | none =>
        match ho : opening? previousA previousE (a :: as) (e :: es) with
        | some (as', es') => alignFrom (depth + 1) (some ' ') (some '<') as' es'
        | none => false
  | _, _ => false
termination_by actual.length
decreasing_by
  · simp
  · exact length_closing? hc
  · exact length_opening? ho

/-- Do the texts agree when read-only arrays are read alike? Only texts that name one on each side
are compared in this way. -/
def matchesReadonlyArray (actual expected : Text) : Bool :=
  holdsWord "readonly".toList actual &&
    (holdsWord "ReadOnlyArrayOf".toList expected || holdsWord "ReadonlyArray".toList expected) &&
    alignFrom 0 none none actual expected

end TypeText
end TypeComments
