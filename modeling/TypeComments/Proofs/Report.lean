import TypeComments.Proofs.Edit
import TypeComments.Proofs.LineTable.Location
import TypeComments.Report.Basic

/-! How a report is put together: each finding gives one entry, at the place it is about, and
entries at one place stay in the order of their sorts and, within a sort, of the findings. -/

namespace TypeComments

inductive Finding
  | mistake (m : MistakeAt)
  | duplicate (line : Nat)
  | unmet (u : Unmet)
  | missingError (line : Nat)
  | orphan (line : Nat)

/-- All findings; where two are at one place, the one that comes first here is reported first. -/
def Findings.all (f : Findings) : List Finding :=
  f.mistakes.map .mistake ++ f.duplicateLines.map .duplicate ++ f.unmet.map .unmet ++
    f.missingErrorLines.map .missingError ++ f.orphanLines.map .orphan

def Unmet.snapshotName? (u : Unmet) : Option Text :=
  match u.expectation with
  | .line _ (.snapshot name _) => some name
  | .line _ (.manual _) | .caret _ => none

namespace Finding

/-- The start of the line, or, for a caret, where the expected text starts. -/
def location (source : Text) : Finding → Location
  | mistake m => ⟨m.line + 1, 1⟩
  | duplicate line | missingError line | orphan line => ⟨line + 1, 1⟩
  | unmet u =>
    match u.expectation with
    | .line line _ => ⟨line + 1, 1⟩
    | .caret caret => (LineTable.ofText source).location source caret.range.start

def category : Finding → Category
  | mistake _ => .malformedDirective
  | duplicate _ => .duplicateAssertion
  | unmet u =>
    match u.reason with
    | .typeMismatch => .typesDoNotMatch
    | .snapshotNotFound => .snapshotNotFound
    | .snapshotMismatch => .snapshotDoesNotMatch
  | missingError _ => .expectedErrorNotFound
  | orphan _ => .orphanAssertion

def details : Finding → Details
  | mistake m => { detail := some m.mistake.message.toList }
  | unmet u =>
    { expected := u.expected?, actual := some u.actual, snapshotName := u.snapshotName? }
  | duplicate _ | missingError _ | orphan _ => {}

def report (source : Text) : Finding → Report
  | mistake m => .ofMistake m
  | duplicate line => .ofDuplicate line
  | unmet u => .ofUnmet source u
  | missingError line => .ofMissingError line
  | orphan line => .ofOrphan line

def le (source : Text) (x y : Finding) : Bool := (x.location source).le (y.location source)

theorem le_trans {source : Text} (x y z : Finding) (hxy : x.le source y = true)
    (hyz : y.le source z = true) : x.le source z = true :=
  Location.le_trans hxy hyz

theorem le_total {source : Text} (x y : Finding) : (x.le source y || y.le source x) = true :=
  Location.le_total _ _

end Finding

namespace FileReport

theorem reports_ofFindings_eq_nil_iff {file source : Text} {f : Findings} :
    (ofFindings file source f).reports = [] ↔ f = {} := by
  have hperm := (ofFindings_perm file source f).length_eq
  rw [← List.length_eq_zero_iff, hperm, List.length_eq_zero_iff]
  cases f
  simp only [unsorted, List.append_eq_nil_iff, List.map_eq_nil_iff, Findings.mk.injEq]
  tauto

/-- On one line a mistake comes first and an orphan last, whatever was found first. -/
example :
    let f : Findings :=
      { orphanLines := [0, 3]
        duplicateLines := [5, 3]
        missingErrorLines := [3]
        mistakes := [⟨.missingType, 3⟩] }
    (ofFindings [] [] f).diagnostics.map (fun d => (d.location, d.category)) =
      [(⟨1, 1⟩, .orphanAssertion), (⟨4, 1⟩, .malformedDirective), (⟨4, 1⟩, .duplicateAssertion),
        (⟨4, 1⟩, .expectedErrorNotFound), (⟨4, 1⟩, .orphanAssertion),
        (⟨6, 1⟩, .duplicateAssertion)] := by
  cbv

end FileReport
end TypeComments
