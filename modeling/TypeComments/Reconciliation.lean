import TypeComments.Assertion.Source
import TypeComments.Binding
import TypeComments.Findings
import TypeComments.Host
import TypeComments.Options
import TypeComments.TypeText.Match

/-! Assertions against facts. First every enabled assertion is matched with a node; this plan also
tells what the host will be asked. Then each node's type is compared with the expected one. No
finding keeps another from being made. -/

namespace TypeComments

/-- The enabled assertions of a file and their nodes. -/
structure Plan where
  binding : Binding
  carets : List (CaretAssertion × Option NodeId)

/-- What is asked of the host, in the order in which it is asked. -/
structure Requests where
  files : List Text := []
  types : List NodeId := []
  quickInfos : List (Text × Nat) := []
  snapshots : List (Text × Text) := []
  deriving DecidableEq, Repr

namespace TypeAssertion

/-- The assertion to check, if the options ask for it; the expected text of a snapshot is what
`read` finds under its name. -/
def enable (options : Options) (read : Text → Option Text) : TypeAssertion → Option TypeAssertion
  | manual expected => if options.expectType then some (manual expected) else none
  | snapshot name _ =>
    if options.expectTypeSnapshot then some (snapshot name (read name)) else none

def snapshotName? : TypeAssertion → Option Text
  | manual _ => none
  | snapshot name _ => some name

end TypeAssertion

namespace Plan

variable (ctx : FileContext) (options : Options)

def make (read : Text → Option Text) (assertions : Assertions) : Plan where
  binding := Binding.ofTree ctx.tree (LineTable.ofText ctx.source)
    (assertions.types.filterMap fun _ a => a.enable options read)
  carets :=
    if options.expectType then
      assertions.carets.map fun c => (c, c.position.bind ctx.tree.locate)
    else []

/-- The snapshots that the enabled assertions name, in ascending order. -/
def snapshotReads (assertions : Assertions) : List (Text × Text) :=
  let enabled := assertions.types.toList.filterMap fun p => p.2.enable options fun _ => none
  ((enabled.filterMap TypeAssertion.snapshotName?).map (ctx.file, ·)).mergeSort
    fun a b => (compare a.2 b.2).isLE

def requests (plan : Plan) (assertions : Assertions) : Requests where
  types := plan.binding.bound.map Bound.node
  quickInfos := plan.carets.filterMap fun p =>
    p.2.map fun n => (ctx.file, (ctx.tree.span n).start)
  snapshots := snapshotReads ctx options assertions

end Plan

namespace Findings

variable (ctx : FileContext) (options : Options)

/-- The fix for a type assertion: a snapshot can be stored anew, a directive stays as it is. -/
def fixFor (actual : Text) : TypeAssertion → Option Fix
  | .manual _ => none
  | .snapshot name _ =>
    if options.disableSnapshotFix then none
    else some (.updateSnapshot { file := ctx.file, name := name, text := actual })

def checkBound (b : Bound) : Option Unmet :=
  let actual := ctx.typeText b.node
  if b.assertion.expected?.any (TypeText.meets b.assertion.kind actual) then none
  else some ⟨.line b.line b.assertion, b.node, actual, fixFor ctx options actual b.assertion⟩

inductive CaretVerdict
  | orphan
  | met
  | unmet (u : Unmet)
  deriving DecidableEq, Repr

namespace CaretVerdict

def isOrphan : CaretVerdict → Bool
  | orphan => true
  | _ => false

def unmet? : CaretVerdict → Option Unmet
  | unmet u => some u
  | _ => none

end CaretVerdict

/-- Compare what an editor shows at the node of a caret with the expected text. -/
def checkCaret (p : CaretAssertion × Option NodeId) : CaretVerdict :=
  match p.2.bind fun n => (ctx.quickInfo? n).map fun actual => (n, actual) with
  | none => .orphan
  | some (n, actual) =>
    if TypeText.meets .caret actual p.1.expected then .met
    else .unmet ⟨.caret p.1, n, actual, some (.replaceText (p.1.replacement actual))⟩

/-- The lines that should have an error and on which no diagnostic starts, in ascending order. -/
def missingErrors (errorLines : Std.ExtTreeSet Nat) : List Nat :=
  let table := LineTable.ofText ctx.source
  let reported := ctx.diagnostics.map fun span => table.lineIndex span.start
  errorLines.toList.filter fun line => !reported.contains line

def ofPlan (plan : Plan) (assertions : Assertions) : Findings where
  unmet := plan.binding.bound.filterMap (checkBound ctx options) ++
    plan.carets.filterMap fun p => (checkCaret ctx p).unmet?
  orphanLines :=
    (Std.ExtTreeSet.ofList (plan.binding.orphanLines ++
      (plan.carets.filter fun p => (checkCaret ctx p).isOrphan).map fun p => p.1.line)).toList
  duplicateLines := assertions.duplicateLines
  missingErrorLines :=
    if options.expectError then missingErrors ctx assertions.errorLines else []
  mistakes := assertions.mistakes

variable {σ : Type} [SnapshotStore σ]

/-- Check assertions; snapshots are read from `store`. -/
def ofAssertions (store : σ) (assertions : Assertions) : Findings :=
  ofPlan ctx options (Plan.make ctx options (SnapshotStore.read store ctx.file) assertions)
    assertions

def ofSource (store : σ) : Findings :=
  ofAssertions ctx options store (Assertions.ofSource ctx.source)

end Findings

namespace Requests

/-- What the host is asked when assertions are checked; the snapshots that are stored do not
matter to it. -/
def ofAssertions (ctx : FileContext) (options : Options) (assertions : Assertions) : Requests :=
  (Plan.make ctx options (fun _ => none) assertions).requests ctx options assertions

end Requests
end TypeComments
