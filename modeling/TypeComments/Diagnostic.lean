import TypeComments.Location
import TypeComments.Text.Basic

/-! What is said about a file. Every diagnostic belongs to a category with a stable identifier and a
severity, and keeps the values of its message apart for readers that word it themselves. -/

namespace TypeComments

inductive Severity
  | error | warning
  deriving DecidableEq, Repr

def Severity.name : Severity → String
  | error => "error"
  | warning => "warning"

inductive Category
  | typesDoNotMatch
  | snapshotNotFound
  | snapshotDoesNotMatch
  | orphanAssertion
  | duplicateAssertion
  | expectedErrorNotFound
  | malformedDirective
  | fileNotIncluded
  deriving DecidableEq, Repr

namespace Category

def all : List Category :=
  [typesDoNotMatch, snapshotNotFound, snapshotDoesNotMatch, orphanAssertion, duplicateAssertion,
   expectedErrorNotFound, malformedDirective, fileNotIncluded]

theorem mem_all (c : Category) : c ∈ all := by
  cases c <;> decide

def id : Category → String
  | typesDoNotMatch => "types-do-not-match"
  | snapshotNotFound => "type-snapshot-not-found"
  | snapshotDoesNotMatch => "type-snapshot-do-not-match"
  | orphanAssertion => "orphan-assertion"
  | duplicateAssertion => "duplicate-assertion"
  | expectedErrorNotFound => "expected-error-not-found"
  | malformedDirective => "syntax-error"
  | fileNotIncluded => "file-not-included"

def ofId? (s : String) : Option Category := all.find? (·.id == s)

theorem ofId?_id (c : Category) : ofId? c.id = some c := by
  cases c <;> decide

/-- An orphan is only pointed out; all else is an error. -/
def severity : Category → Severity
  | orphanAssertion => .warning
  | _ => .error

end Category

/-- The values that stand in a message. -/
structure Details where
  expected : Option Text := none
  actual : Option Text := none
  snapshotName : Option Text := none
  fileName : Option Text := none
  detail : Option Text := none
  deriving DecidableEq, Repr

structure Diagnostic where
  category : Category
  severity : Severity
  message : String
  location : Location
  details : Details
  deriving DecidableEq, Repr

namespace Diagnostic

def ofCategory (category : Category) (location : Location) : Diagnostic :=
  ⟨category, category.severity, "", location, {}⟩

def isError (d : Diagnostic) : Bool := d.severity == .error

protected def toString (d : Diagnostic) : String :=
  d.location.toString ++ " " ++ d.severity.name ++ " [" ++ d.category.id ++ "]: " ++ d.message

instance : ToString Diagnostic := ⟨Diagnostic.toString⟩

def typesDoNotMatch (location : Location) (expected actual : Text) : Diagnostic :=
  { ofCategory .typesDoNotMatch location with
    message :=
      "Expected type to be: " ++ String.ofList expected ++ ", got: " ++ String.ofList actual
    details := { expected := some expected, actual := some actual } }

def snapshotNotFound (location : Location) (name actual : Text) : Diagnostic :=
  { ofCategory .snapshotNotFound location with
    message := "Type snapshot `" ++ String.ofList name ++ "` not found; apply fixes to record it"
    details := { actual := some actual, snapshotName := some name } }

def snapshotDoesNotMatch (location : Location) (name expected actual : Text) : Diagnostic :=
  { ofCategory .snapshotDoesNotMatch location with
    message := "Expected type from snapshot `" ++ String.ofList name ++ "` to be: " ++
      String.ofList expected ++ ", got: " ++ String.ofList actual
    details := { expected := some expected, actual := some actual, snapshotName := some name } }

def orphanAssertion (location : Location) : Diagnostic :=
  { ofCategory .orphanAssertion location with
    message := "Can not match a node to this assertion" }

def duplicateAssertion (location : Location) : Diagnostic :=
  { ofCategory .duplicateAssertion location with
    message := "This line has two or more assertions" }

def expectedErrorNotFound (location : Location) : Diagnostic :=
  { ofCategory .expectedErrorNotFound location with
    message := "Expected an error on this line, but found none" }

def malformedDirective (location : Location) (detail : Text) : Diagnostic :=
  { ofCategory .malformedDirective location with
    message := "Syntax error: " ++ String.ofList detail
    details := { detail := some detail } }

/-- Always at the top of the file. -/
def fileNotIncluded (file : Text) : Diagnostic :=
  { ofCategory .fileNotIncluded ⟨1, 1⟩ with
    message :=
      "Expected to find file `" ++ String.ofList file ++ "` among the type checker's files"
    details := { fileName := some file } }

end Diagnostic
end TypeComments
