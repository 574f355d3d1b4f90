import TypeComments.Diagnostic
import TypeComments.Findings
import TypeComments.LineTable

/-! Reports on a file: one for each finding, in the order of the places they point at. -/

namespace TypeComments

structure Report where
  diagnostic : Diagnostic
  fix : Option Fix := none
  deriving DecidableEq, Repr

structure FileReport where
  file : Text := []
  reports : List Report := []
  deriving DecidableEq, Repr

namespace Report

def le (a b : Report) : Bool := a.diagnostic.location.le b.diagnostic.location

theorem le_trans (a b c : Report) (hab : a.le b = true) (hbc : b.le c = true) : a.le c = true :=
  Location.le_trans hab hbc

theorem le_total (a b : Report) : (a.le b || b.le a) = true := Location.le_total _ _

def ofMistake (m : MistakeAt) : Report :=
  { diagnostic := .malformedDirective (.startOfLine m.line) m.mistake.message.toList }

def ofDuplicate (line : Nat) : Report :=
  { diagnostic := .duplicateAssertion (.startOfLine line) }

def ofMissingError (line : Nat) : Report :=
  { diagnostic := .expectedErrorNotFound (.startOfLine line) }

def ofOrphan (line : Nat) : Report :=
  { diagnostic := .orphanAssertion (.startOfLine line) }

/-- An unmet assertion is reported on its line, a caret where its expected text starts. -/
def ofUnmet (source : Text) (u : Unmet) : Report where
  diagnostic :=
    match u.expectation with
    | .line line (.manual expected) => .typesDoNotMatch (.startOfLine line) expected u.actual
    | .line line (.snapshot name none) => .snapshotNotFound (.startOfLine line) name u.actual
    | .line line (.snapshot name (some expected)) =>
      .snapshotDoesNotMatch (.startOfLine line) name expected u.actual
    | .caret caret =>
      .typesDoNotMatch ((LineTable.ofText source).location source caret.range.start)
        caret.expected u.actual
  fix := u.fix

end Report

namespace FileReport

def notIncluded (file : Text) : FileReport :=
  ⟨file, [{ diagnostic := .fileNotIncluded file }]⟩

def unsorted (source : Text) (f : Findings) : List Report :=
  f.mistakes.map Report.ofMistake ++ f.duplicateLines.map Report.ofDuplicate ++
    f.unmet.map (Report.ofUnmet source) ++ f.missingErrorLines.map Report.ofMissingError ++
    f.orphanLines.map Report.ofOrphan

/-- The report on a file with these findings. Findings at one place keep their order. -/
def ofFindings (file source : Text) (f : Findings) : FileReport :=
  ⟨file, (unsorted source f).mergeSort Report.le⟩

def isEmpty (r : FileReport) : Bool := r.reports.isEmpty

def diagnostics (r : FileReport) : List Diagnostic := r.reports.map Report.diagnostic

def hasErrors (r : FileReport) : Bool := r.diagnostics.any Diagnostic.isError

theorem ofFindings_perm (file source : Text) (f : Findings) :
    (ofFindings file source f).reports.Perm (unsorted source f) :=
  List.mergeSort_perm _ _

theorem ofFindings_pairwise (file source : Text) (f : Findings) :
    (ofFindings file source f).reports.Pairwise fun a b => a.le b = true :=
  List.pairwise_mergeSort Report.le_trans Report.le_total _

end FileReport
end TypeComments
