import TypeComments.Reconciliation
import TypeComments.Report.Fixing

/-! The check of a file, from its text to its report. -/

namespace TypeComments

variable {σ : Type} [SnapshotStore σ]

/-- Report on a file. A file without anything that could be a directive is not looked at closer.
Snapshots are only read; the fixes of the report write them. -/
def checkFile (ctx : FileContext) (options : Options) (store : σ) : FileReport :=
  if ctx.checker.containsFile ctx.file then
    if Directive.mayOccur ctx.source then
      FileReport.ofFindings ctx.file ctx.source (Findings.ofSource ctx options store)
    else { file := ctx.file }
  else FileReport.notIncluded ctx.file

def Requests.ofCheck (ctx : FileContext) (options : Options) : Requests :=
  let checks := ctx.checker.containsFile ctx.file && Directive.mayOccur ctx.source
  let requests :=
    if checks then Requests.ofAssertions ctx options (Assertions.ofSource ctx.source) else {}
  { requests with files := [ctx.file] }

end TypeComments
