import TypeComments.Report.Basic

/-! Applying the fixes of a report. Snapshots are written first, in the order of the reports, up to
the first write that is refused. Only when all are written are the edits made to the source; an
edit that fails does not undo the writes. -/

namespace TypeComments

inductive FixError
  | snapshot (e : SnapshotError)
  | edit (e : EditError)
  deriving DecidableEq, Repr

variable {σ : Type} [SnapshotStore σ]

namespace Report

def writeSnapshot (r : Report) (store : σ) : Except SnapshotError (Report × σ) :=
  match r.fix with
  | some (.updateSnapshot update) =>
    (update.apply store).map fun done =>
      ({ r with fix := some (.updateSnapshot done.update) }, done.store)
  | _ => .ok (r, store)

def edit? (r : Report) : Option TextEdit := r.fix.map Fix.edit

end Report

/-- Reports and store after writing snapshots, and the refusal that ended it, if there was one. -/
structure Writing (σ : Type) where
  reports : List Report
  store : σ
  refused : Option SnapshotError

/-- Write the snapshots of reports in order, up to the first refusal. -/
def Writing.run (store : σ) : List Report → Writing σ
  | [] => ⟨[], store, none⟩
  | r :: rest =>
    match r.writeSnapshot store with
    | .ok (r', store') =>
      let w := Writing.run store' rest
      { w with reports := r' :: w.reports }
    | .error e => ⟨r :: rest, store, some e⟩

structure Fixing (σ : Type) where
  report : FileReport
  store : σ
  outcome : Except FixError Text

/-- Apply every fix: write the snapshots that still wait, then edit the source. -/
def FileReport.applyFixes (r : FileReport) (source : Text) (store : σ) : Fixing σ :=
  let w := Writing.run store r.reports
  { report := { r with reports := w.reports }
    store := w.store
    outcome :=
      match w.refused with
      | some e => .error (.snapshot e)
      | none =>
        ((ChangeSet.ofList (w.reports.filterMap Report.edit?)).apply source).mapError .edit }

end TypeComments
