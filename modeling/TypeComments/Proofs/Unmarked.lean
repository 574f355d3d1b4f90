import TypeComments.Check
import TypeComments.Proofs.Assertion.Records
import TypeComments.Proofs.Comment
import TypeComments.Proofs.Directive.Grammar

/-! Sources without a mark. A source is searched for `$Expect` and `^?` before it is looked at
closer. Every directive has one of the two marks, so a source with neither asserts nothing, and the
check of its assertions finds nothing, whatever the tree: the search saves work and changes no
report. -/

namespace TypeComments

theorem Text.holds_iff_infix {word t : Text} : holds word t = true ↔ word <:+: t := by
  rw [holds_iff]
  exact ⟨fun ⟨a, b, h⟩ => ⟨a, b, h.symm⟩, fun ⟨a, b, h⟩ => ⟨a, b, h.symm⟩⟩

theorem Directive.mayOccur_eq_false_iff {source : Text} :
    mayOccur source = false ↔ ¬ marker <:+: source ∧ ¬ caretMark <:+: source := by
  rw [mayOccur, Bool.or_eq_false_iff, Bool.eq_false_iff, Bool.eq_false_iff, Ne, Ne,
    Text.holds_iff_infix, Text.holds_iff_infix]

theorem Assertions.ofSource_of_not_mayOccur {source : Text}
    (h : Directive.mayOccur source = false) : ofSource source = {} := by
  have hnone : Record.ofSource source = [] := by
    rw [List.eq_nil_iff_forall_not_mem]
    intro r hr
    obtain ⟨front, l, below, c, d, hlines, hc, hd, -⟩ := Record.mem_ofLines.1 hr
    have hall : c ∈ Comment.all source := Comment.mem_all.2 ⟨l, by simp [hlines], hc⟩
    have hoccurs := Comment.mayOccur_of_mem_all hall (Directive.ofBody?_eq_some_iff.1 hd).mayOccur
    rw [h] at hoccurs
    cases hoccurs
  rw [ofSource_eq_foldl, hnone]
  rfl

/-- A walk that is done before it starts enters no node, so that it does not matter what visiting
one would do, how the nodes are linked, or how deep the walk may go. -/
theorem SyntaxTree.walkBelow_of_done {σ : Type} (t : SyntaxTree) (done : σ → Bool) {s : σ}
    (h : done s = true) (visit : σ → NodeId → σ) (depth : Nat) (n : NodeId) :
    t.walkBelow done visit depth n s = s := by
  rw [walkBelow_eq_foldl]
  induction t.below depth n with
  | nil => rfl
  | cons c ns ih => rw [List.foldl_cons, if_pos h, ih]

variable (ctx : FileContext) (options : Options) {σ : Type} [SnapshotStore σ] (store : σ)

theorem TypeAssertion.filterMap_enable_empty (read : Text → Option Text) :
    ((∅ : Std.ExtTreeMap Nat TypeAssertion).filterMap fun _ t => t.enable options read) = ∅ := by
  apply Std.ExtTreeMap.ext_getElem?
  intro line
  rw [Std.ExtTreeMap.getElem?_filterMap, Std.ExtTreeMap.getElem?_empty]
  rfl

def FileContext.pendingTypes : Std.ExtTreeMap Nat TypeAssertion :=
  (Assertions.ofSource ctx.source).types.filterMap fun _ t =>
    t.enable options (SnapshotStore.read store ctx.file)

namespace Findings

theorem ofAssertions_empty : ofAssertions ctx options store {} = {} := by
  have hbinding : (Plan.make ctx options (SnapshotStore.read store ctx.file) {}).binding =
      ⟨[], ∅⟩ := by
    simp only [Plan.make, TypeAssertion.filterMap_enable_empty]
    exact ctx.tree.walkBelow_of_done (fun b : Binding => b.pending.isEmpty)
      Std.ExtTreeMap.isEmpty_empty _ _ _
  have hcarets : (Plan.make ctx options (SnapshotStore.read store ctx.file) {}).carets = [] := by
    simp [Plan.make]
  have herrors : missingErrors ctx ∅ = [] := by simp [missingErrors]
  simp [ofAssertions, ofPlan, hbinding, hcarets, herrors, Binding.orphanLines]

theorem ofSource_of_not_mayOccur (h : Directive.mayOccur ctx.source = false) :
    ofSource ctx options store = {} := by
  rw [ofSource, Assertions.ofSource_of_not_mayOccur h, ofAssertions_empty]

end Findings

theorem FileReport.ofFindings_empty (file source : Text) :
    ofFindings file source {} = { file := file } := by
  simp [ofFindings, unsorted]

theorem checkFile_of_containsFile (hfile : ctx.checker.containsFile ctx.file = true) :
    checkFile ctx options store =
      FileReport.ofFindings ctx.file ctx.source (Findings.ofSource ctx options store) := by
  rw [checkFile, if_pos hfile]
  split
  · rfl
  · rename_i hmark
    rw [Findings.ofSource_of_not_mayOccur ctx options store (Bool.eq_false_iff.2 hmark),
      FileReport.ofFindings_empty]

/-- The search for marks does not change the report on a file of the program. Where it finds none,
there are no assertions, the walk over the tree enters no node, and there are no findings, so that
there is nothing to report. -/
theorem checkFile_eq_without_search :
    (ctx.checker.containsFile ctx.file = true → checkFile ctx options store =
      FileReport.ofFindings ctx.file ctx.source (Findings.ofSource ctx options store)) ∧
    (¬ "$Expect".toList <:+: ctx.source → ¬ "^?".toList <:+: ctx.source →
      (Assertions.ofSource ctx.source).isEmpty = true ∧
      (∀ (visit : Binding → NodeId → Binding) (depth : Nat),
        ctx.tree.walkBelow (fun b => b.pending.isEmpty) visit depth SyntaxTree.root
          ⟨[], ctx.pendingTypes options store⟩ = ⟨[], ctx.pendingTypes options store⟩) ∧
      Findings.ofSource ctx options store = {} ∧
      (ctx.checker.containsFile ctx.file = true → (checkFile ctx options store).reports = [])) := by
  refine ⟨checkFile_of_containsFile ctx options store, fun hmarker hcaret => ?_⟩
  have hoccurs : Directive.mayOccur ctx.source = false :=
    Directive.mayOccur_eq_false_iff.2 ⟨hmarker, hcaret⟩
  have hsource := Assertions.ofSource_of_not_mayOccur hoccurs
  have hfindings := Findings.ofSource_of_not_mayOccur ctx options store hoccurs
  refine ⟨by rw [hsource]; rfl, fun visit depth => ?_, hfindings, fun hfile => ?_⟩
  · apply SyntaxTree.walkBelow_of_done
    simp only [FileContext.pendingTypes, hsource, TypeAssertion.filterMap_enable_empty]
    exact Std.ExtTreeMap.isEmpty_empty
  · rw [checkFile_of_containsFile ctx options store hfile, hfindings, FileReport.ofFindings_empty]

def unmarkedFile : FileContext where
  file := "a.ts".toList
  source := "f(); // $ Expect Type ^ ?".toList
  tree := ⟨#[⟨"File", ⟨0, 4⟩, .other, [1]⟩, ⟨"Call", ⟨0, 4⟩, .other, [1]⟩]⟩
  checker := ⟨fun _ => true, fun _ => none⟩
  service := ⟨fun _ _ => none⟩
  diagnostics := []

theorem unmarkedFile_unreported :
    unmarkedFile.tree.children 1 = [1] ∧
    ¬ "$Expect".toList <:+: unmarkedFile.source ∧ ¬ "^?".toList <:+: unmarkedFile.source ∧
    Findings.ofSource unmarkedFile {} ({} : MemoryStore) = {} ∧
    (checkFile unmarkedFile {} ({} : MemoryStore)).reports = [] := by
  obtain ⟨hmarker, hcaret⟩ : ¬ "$Expect".toList <:+: unmarkedFile.source ∧
      ¬ "^?".toList <:+: unmarkedFile.source := Directive.mayOccur_eq_false_iff.1 (by decide)
  have hcheck := checkFile_eq_without_search unmarkedFile {} ({} : MemoryStore)
  obtain ⟨-, -, hfindings, hreports⟩ := hcheck.2 hmarker hcaret
  exact ⟨by decide, hmarker, hcaret, hfindings, hreports rfl⟩

end TypeComments
