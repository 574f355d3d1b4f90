import Std.Data.ExtTreeMap
import Std.Data.ExtTreeSet
import TypeComments.Span
import TypeComments.Text.Basic

/-! The assertions of one file. Those made by `$Expect…` directives belong to a line; those made by
carets belong to an offset, because a caret points at a column of the line above it. Lines are
numbered from 0. -/

namespace TypeComments

/-- An assertion on the type of the code that starts on a line. -/
inductive TypeAssertion
  | manual (expected : Text)
  | snapshot (name : Text) (expected : Option Text)
  deriving DecidableEq, Repr

inductive AssertionKind
  | manual | snapshot | caret
  deriving DecidableEq, Repr

namespace TypeAssertion

def expected? : TypeAssertion → Option Text
  | manual expected => some expected
  | snapshot _ expected => expected

def kind : TypeAssertion → AssertionKind
  | manual _ => .manual
  | snapshot _ _ => .snapshot

end TypeAssertion

/-- An assertion on the code above a `^`. -/
structure CaretAssertion where
  /-- The offset pointed at; `none` if there is no character above the caret. -/
  position : Option Nat
  line : Nat
  expected : Text
  range : Span
  /-- What starts each further line of the expected text: the caret's line up to the caret, and
  three spaces under `^? `. -/
  margin : Text
  /-- Nothing follows the `^?`, so that a text written there needs a space before it. -/
  needsSpace : Bool
  deriving DecidableEq, Repr

def CaretAssertion.unattachable (line : Nat) : CaretAssertion where
  position := none
  line := line
  expected := []
  range := Span.dummy
  margin := []
  needsSpace := false

inductive Mistake
  | missingType | missingSnapshotName | caretSpacing
  deriving DecidableEq, Repr

def Mistake.message : Mistake → String
  | missingType => "$ExpectType requires a type argument"
  | missingSnapshotName => "$ExpectTypeSnapshot requires a snapshot name"
  | caretSpacing => "expected a single space between `^?` and the expected type"

structure MistakeAt where
  mistake : Mistake
  line : Nat
  deriving DecidableEq, Repr

/-- Everything the comments of one file assert. -/
structure Assertions where
  types : Std.ExtTreeMap Nat TypeAssertion := ∅
  errorLines : Std.ExtTreeSet Nat := ∅
  carets : List CaretAssertion := []
  /-- The lines about which two directives of one sort speak, in the order they were noticed. -/
  duplicateLines : List Nat := []
  mistakes : List MistakeAt := []

namespace Assertions

def isEmpty (a : Assertions) : Bool :=
  a.types.isEmpty && a.errorLines.isEmpty && a.carets.isEmpty && a.duplicateLines.isEmpty &&
    a.mistakes.isEmpty

def markDuplicate (a : Assertions) (line : Nat) : Assertions :=
  if line ∈ a.duplicateLines then a else { a with duplicateLines := a.duplicateLines ++ [line] }

/-- Add a type assertion. On a line that has one, both are dropped and the line is a duplicate. -/
def insertType (a : Assertions) (line : Nat) (assertion : TypeAssertion) : Assertions :=
  if line ∈ a.types then { a with types := a.types.erase line }.markDuplicate line
  else { a with types := a.types.insert line assertion }

def insertError (a : Assertions) (line : Nat) : Assertions :=
  if line ∈ a.errorLines then { a with errorLines := a.errorLines.erase line }.markDuplicate line
  else { a with errorLines := a.errorLines.insert line }

def addMistake (a : Assertions) (mistake : Mistake) (line : Nat) : Assertions :=
  { a with mistakes := a.mistakes ++ [⟨mistake, line⟩] }

def addCaret (a : Assertions) (caret : CaretAssertion) : Assertions :=
  { a with carets := a.carets ++ [caret] }

theorem isEmpty_iff {a : Assertions} :
    a.isEmpty = true ↔ a.types = ∅ ∧ a.errorLines = ∅ ∧ a.carets = [] ∧ a.duplicateLines = [] ∧
      a.mistakes = [] := by
  simp [isEmpty, and_assoc]

@[simp] theorem types_markDuplicate (a : Assertions) (k : Nat) :
    (a.markDuplicate k).types = a.types := by
  unfold markDuplicate; split <;> rfl

@[simp] theorem errorLines_markDuplicate (a : Assertions) (k : Nat) :
    (a.markDuplicate k).errorLines = a.errorLines := by
  unfold markDuplicate; split <;> rfl

@[simp] theorem carets_markDuplicate (a : Assertions) (k : Nat) :
    (a.markDuplicate k).carets = a.carets := by
  unfold markDuplicate; split <;> rfl

@[simp] theorem mistakes_markDuplicate (a : Assertions) (k : Nat) :
    (a.markDuplicate k).mistakes = a.mistakes := by
  unfold markDuplicate; split <;> rfl

theorem types_insertType (a : Assertions) (k l : Nat) (t : TypeAssertion) :
    (a.insertType k t).types[l]? =
      if k = l then (if k ∈ a.types then none else some t) else a.types[l]? := by
  by_cases hk : k ∈ a.types
  · simp [insertType, hk, Std.ExtTreeMap.getElem?_erase]
  · simp [insertType, hk, Std.ExtTreeMap.getElem?_insert]

theorem mem_errorLines_insertError (a : Assertions) (k l : Nat) :
    l ∈ (a.insertError k).errorLines ↔ if k = l then k ∉ a.errorLines else l ∈ a.errorLines := by
  by_cases hk : k ∈ a.errorLines
  · rw [insertError, if_pos hk]
    by_cases hl : k = l <;> simp_all [Std.ExtTreeSet.mem_erase]
  · rw [insertError, if_neg hk]
    by_cases hl : k = l <;> simp_all [Std.ExtTreeSet.mem_insert]

end Assertions
end TypeComments
