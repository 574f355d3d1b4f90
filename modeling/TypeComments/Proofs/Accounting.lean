import TypeComments.Proofs.CleanReport
import TypeComments.Proofs.FixedCode

/-! Findings account for every assertion, and for each of them once. A type assertion that is
checked is an orphan, unmet or met, and so is a caret; what is found is said in terms of the nodes
of the tree and the answers of the host, for assertions of any origin and under any options. -/

namespace TypeComments

def ExactlyOne (p q r : Prop) : Prop := (p ∧ ¬ q ∧ ¬ r) ∨ (¬ p ∧ q ∧ ¬ r) ∨ (¬ p ∧ ¬ q ∧ r)

namespace Unmet

def isOnLine (line : Nat) (u : Unmet) : Bool :=
  match u.expectation with
  | .line k _ => k = line
  | .caret _ => false

def isOnCaret (u : Unmet) : Bool :=
  match u.expectation with
  | .line _ _ => false
  | .caret _ => true

end Unmet

namespace FileContext

variable (ctx : FileContext)

/-- A node other than the root starts on a line. -/
def StartsOn (n : NodeId) (line : Nat) : Prop :=
  Relation.TransGen ctx.tree.IsChild SyntaxTree.root n ∧
    (LineTable.ofText ctx.source).lineIndex (ctx.tree.span n).start = line

/-- A caret points into the node `n`, of which an editor shows `actual`. -/
def Shows (c : CaretAssertion) (n : NodeId) (actual : Text) : Prop :=
  ∃ offset, c.position = some offset ∧ ctx.IsAt offset n ∧ ctx.quickInfo? n = some actual

variable {ctx}

theorem SpeaksOf.unique {line : Nat} {n m : NodeId} (hn : ctx.SpeaksOf line n)
    (hm : ctx.SpeaksOf line m) : n = m := by
  obtain ⟨ns, first, hns, hfirst, rfl⟩ := hn
  obtain ⟨ms, first', hms, hfirst', rfl⟩ := hm
  rw [hms.unique hns, hfirst] at hfirst'
  rw [Option.some.inj hfirst']

theorem exists_speaksOf_iff (ht : ctx.tree.Acyclic) (line : Nat) :
    (∃ n, ctx.SpeaksOf line n) ↔ (ctx.tree.descendants SyntaxTree.root).any (fun n =>
      Binding.lineOf ctx.tree (LineTable.ofText ctx.source) n = line) = true := by
  simp only [Findings.speaksOf_iff ctx ht]
  rw [← List.isSome_find?, Option.isSome_iff_exists]
  constructor
  · rintro ⟨_, first, hfirst, -⟩
    exact ⟨first, hfirst⟩
  · rintro ⟨first, hfirst⟩
    exact ⟨_, first, hfirst, rfl⟩

theorem exists_startsOn_iff (ht : ctx.tree.Acyclic) (line : Nat) :
    (∃ n, ctx.StartsOn n line) ↔ ∃ n, ctx.SpeaksOf line n := by
  simp only [exists_speaksOf_iff ht, List.any_eq_true, decide_eq_true_eq, StartsOn,
    ← SyntaxTree.mem_descendants_root_iff ht]
  rfl

theorem shows_iff (ht : ctx.tree.Acyclic) {c : CaretAssertion} {n : NodeId} {actual : Text} :
    ctx.Shows c n actual ↔
      c.position.bind ctx.tree.locate = some n ∧ ctx.quickInfo? n = some actual := by
  simp only [Shows, IsAt, ← SyntaxTree.locate_eq_some_iff ht, Option.bind_eq_some_iff]
  tauto

end FileContext

namespace Findings

def unmetOn (f : Findings) (line : Nat) : List Unmet := f.unmet.filter (Unmet.isOnLine line)

variable (ctx : FileContext) (options : Options) (f : Findings)

def TypeOrphan (line : Nat) : Prop :=
  (¬ ∃ n, ctx.StartsOn n line) ∧ line ∈ f.orphanLines ∧ f.unmetOn line = []

def TypeUnmet (line : Nat) (t : TypeAssertion) : Prop :=
  ∃ n, ctx.SpeaksOf line n ∧
    (∀ expected, t.expected? = some expected →
      TypeText.meets t.kind (ctx.typeText n) expected = false) ∧
    f.unmetOn line = [⟨.line line t, n, ctx.typeText n, fixFor ctx options (ctx.typeText n) t⟩]

def TypeMet (line : Nat) (t : TypeAssertion) : Prop :=
  ∃ n expected, ctx.SpeaksOf line n ∧ t.expected? = some expected ∧
    TypeText.meets t.kind (ctx.typeText n) expected = true ∧ f.unmetOn line = []

/-- A caret shows nothing: it has no position, no node or no quick info. Its line is listed for
that, and `entries`, the unmet entries about it, are none. -/
def CaretOrphan (c : CaretAssertion) (entries : List Unmet) : Prop :=
  (∀ n actual, ¬ ctx.Shows c n actual) ∧ c.line ∈ f.orphanLines ∧ entries = []

def CaretUnmet (c : CaretAssertion) (entries : List Unmet) : Prop :=
  ∃ n actual, ctx.Shows c n actual ∧ TypeText.normalize actual ≠ TypeText.normalize c.expected ∧
    entries = [⟨.caret c, n, actual, some (.replaceText (c.replacement actual))⟩]

def CaretMet (c : CaretAssertion) (entries : List Unmet) : Prop :=
  ∃ n actual, ctx.Shows c n actual ∧ TypeText.normalize actual = TypeText.normalize c.expected ∧
    entries = []

/-- The findings say what there is to say about assertions; `read` gives the stored snapshots. -/
structure Accounts (read : Text → Option Text) (a : Assertions) : Prop where
  types : ∀ line t, a.types[line]? = some t → options.asksFor t = true →
    ExactlyOne (f.TypeOrphan ctx line) (f.TypeUnmet ctx options line (t.filled read))
      (f.TypeMet ctx line (t.filled read))
  otherLines : ∀ line, (∀ t, a.types[line]? = some t → options.asksFor t = false) →
    f.unmetOn line = []
  carets : ∃ entries : List (List Unmet),
    List.Forall₂ (fun c us => ExactlyOne (f.CaretOrphan ctx c us) (CaretUnmet ctx c us)
      (CaretMet ctx c us)) (if options.expectType then a.carets else []) entries ∧
    f.unmet.filter Unmet.isOnCaret = entries.flatten
  orphans_ascending : f.orphanLines.Pairwise (· < ·)
  mem_orphans : ∀ line, line ∈ f.orphanLines ↔
    (∃ t, a.types[line]? = some t ∧ options.asksFor t = true ∧ ¬ ∃ n, ctx.StartsOn n line) ∨
    (options.expectType = true ∧
      ∃ c ∈ a.carets, c.line = line ∧ ∀ n actual, ¬ ctx.Shows c n actual)
  missingErrors_ascending : f.missingErrorLines.Pairwise (· < ·)
  mem_missingErrors : ∀ line, line ∈ f.missingErrorLines ↔
    options.expectError = true ∧ line ∈ a.errorLines ∧
      ∀ span ∈ ctx.diagnostics, (LineTable.ofText ctx.source).lineIndex span.start ≠ line
  duplicates : f.duplicateLines = a.duplicateLines
  mistakes : f.mistakes = a.mistakes

section Lists

variable {ctx options}

theorem expectation_of_checkBound {b : Bound} {u : Unmet}
    (h : checkBound ctx options b = some u) : u.expectation = .line b.line b.assertion := by
  rw [checkBound] at h
  split at h <;> cases h
  rfl

theorem isOnLine_of_checkBound {b : Bound} {u : Unmet} (h : checkBound ctx options b = some u)
    (line : Nat) : u.isOnLine line = decide (b.line = line) ∧ u.isOnCaret = false := by
  rw [Unmet.isOnLine, Unmet.isOnCaret, expectation_of_checkBound h]
  exact ⟨rfl, rfl⟩

theorem isOnCaret_of_checkCaret {p : CaretAssertion × Option NodeId} {u : Unmet}
    (h : (checkCaret ctx p).unmet? = some u) :
    u.isOnCaret = true ∧ ∀ line, u.isOnLine line = false := by
  simp only [Unmet.isOnCaret, Unmet.isOnLine, (unmet_of_checkCaret ctx h).2.1]
  exact ⟨trivial, fun _ => trivial⟩

theorem unmetOn_ofPlan (plan : Plan) (a : Assertions) (line : Nat) :
    (ofPlan ctx options plan a).unmetOn line =
      (plan.binding.bound.filter (·.line = line)).filterMap (checkBound ctx options) := by
  have hbound : (plan.binding.bound.filterMap (checkBound ctx options)).filter
      (Unmet.isOnLine line) =
        (plan.binding.bound.filter (·.line = line)).filterMap (checkBound ctx options) := by
    rw [List.filter_filterMap, List.filterMap_filter]
    apply List.filterMap_congr
    intro b _
    cases hu : checkBound ctx options b with
    | none => simp
    | some u =>
      have honLine := (isOnLine_of_checkBound hu line).1
      by_cases hl : b.line = line <;> simp [Option.filter, honLine, hl]
  have hcarets : (plan.carets.filterMap fun p => (checkCaret ctx p).unmet?).filter
      (Unmet.isOnLine line) = [] := by
    rw [List.filter_eq_nil_iff]
    intro u hu
    obtain ⟨p, -, hp⟩ := List.mem_filterMap.1 hu
    simp [(isOnCaret_of_checkCaret hp).2 line]
  rw [unmetOn, ofPlan, List.filter_append, hbound, hcarets, List.append_nil]

theorem caretEntries_ofPlan (plan : Plan) (a : Assertions) :
    (ofPlan ctx options plan a).unmet.filter Unmet.isOnCaret =
      plan.carets.flatMap fun p => (checkCaret ctx p).unmet?.toList := by
  have hbound : (plan.binding.bound.filterMap (checkBound ctx options)).filter
      Unmet.isOnCaret = [] := by
    rw [List.filter_eq_nil_iff]
    intro u hu
    obtain ⟨b, -, hb⟩ := List.mem_filterMap.1 hu
    simp [(isOnLine_of_checkBound hb 0).2]
  have hcarets : (plan.carets.filterMap fun p => (checkCaret ctx p).unmet?).filter
      Unmet.isOnCaret = plan.carets.filterMap fun p => (checkCaret ctx p).unmet? := by
    rw [List.filter_eq_self]
    intro u hu
    obtain ⟨p, -, hp⟩ := List.mem_filterMap.1 hu
    exact (isOnCaret_of_checkCaret hp).1
  rw [ofPlan, List.filter_append, hbound, hcarets, List.nil_append,
    List.filterMap_eq_flatMap_toList]

theorem mem_orphanLines_ofPlan (plan : Plan) (a : Assertions) (line : Nat) :
    line ∈ (ofPlan ctx options plan a).orphanLines ↔ line ∈ plan.binding.pending ∨
      ∃ p ∈ plan.carets, (checkCaret ctx p).isOrphan = true ∧ p.1.line = line := by
  simp [ofPlan, Std.ExtTreeSet.mem_ofList, Binding.mem_orphanLines, and_assoc]

theorem toList_ascending (ls : Std.ExtTreeSet Nat) : ls.toList.Pairwise (· < ·) :=
  Std.ExtTreeSet.ordered_toList.imp Nat.compare_eq_lt.1

end Lists

section Parts

variable {ctx options} {read : Text → Option Text} {a : Assertions} {line : Nat}

theorem unmetOn_make (ht : ctx.tree.Acyclic) {n : NodeId} (hn : ctx.SpeaksOf line n) :
    (ofPlan ctx options (Plan.make ctx options read a) a).unmetOn line =
      (((a.types[line]?.filter options.asksFor).map (TypeAssertion.filled read)).bind fun t =>
        checkBound ctx options ⟨line, n, t⟩).toList := by
  obtain ⟨first, hfirst, rfl⟩ := (speaksOf_iff ctx ht line n).1 hn
  rw [unmetOn_ofPlan, Plan.make, Binding.boundOn_ofTree, hfirst, Option.bind_some,
    TypeAssertion.getElem?_enable]
  cases (a.types[line]?.filter options.asksFor).map (TypeAssertion.filled read) with
  | none => rfl
  | some t => simp [List.filterMap_eq_flatMap_toList]

theorem unmetOn_make_eq_nil (ht : ctx.tree.Acyclic) (hn : ∀ n, ¬ ctx.SpeaksOf line n) :
    (ofPlan ctx options (Plan.make ctx options read a) a).unmetOn line = [] := by
  rw [unmetOn_ofPlan, Plan.make, Binding.boundOn_ofTree]
  cases hfirst : (ctx.tree.descendants SyntaxTree.root).find? fun m =>
      Binding.lineOf ctx.tree (LineTable.ofText ctx.source) m = line with
  | none => rfl
  | some first => exact absurd ((speaksOf_iff ctx ht line _).2 ⟨first, hfirst, rfl⟩) (hn _)

theorem mem_pending_make (ht : ctx.tree.Acyclic) :
    line ∈ (Plan.make ctx options read a).binding.pending ↔
      ∃ t, a.types[line]? = some t ∧ options.asksFor t = true ∧ ¬ ∃ n, ctx.StartsOn n line := by
  rw [Std.ExtTreeMap.mem_iff_isSome_getElem?, Plan.make, Binding.pending_ofTree,
    TypeAssertion.getElem?_enable, FileContext.exists_startsOn_iff ht,
    FileContext.exists_speaksOf_iff ht]
  split
  · rename_i hany
    simp [hany]
  · rename_i hany
    simp [hany, Option.any_eq_true]

theorem metBy_iff {n : NodeId} {t : TypeAssertion} : MetBy ctx n t ↔ ∃ expected,
    t.expected? = some expected ∧ TypeText.meets t.kind (ctx.typeText n) expected = true := by
  rw [MetBy, Option.any_eq_true]

theorem checkBound_of_not_metBy {n : NodeId} {t : TypeAssertion} (h : ¬ MetBy ctx n t) :
    checkBound ctx options ⟨line, n, t⟩ =
      some ⟨.line line t, n, ctx.typeText n, fixFor ctx options (ctx.typeText n) t⟩ := by
  rw [MetBy] at h
  rw [checkBound, if_neg h]

/-- A checked type assertion is an orphan, unmet or met, and only one of these. -/
theorem types_make (ht : ctx.tree.Acyclic) {t : TypeAssertion} (hline : a.types[line]? = some t)
    (hasks : options.asksFor t = true) :
    ExactlyOne
      ((ofPlan ctx options (Plan.make ctx options read a) a).TypeOrphan ctx line)
      ((ofPlan ctx options (Plan.make ctx options read a) a).TypeUnmet ctx options line
        (t.filled read))
      ((ofPlan ctx options (Plan.make ctx options read a) a).TypeMet ctx line
        (t.filled read)) := by
  have hchecked : (a.types[line]?.filter options.asksFor).map (TypeAssertion.filled read) =
      some (t.filled read) := by simp [hline, hasks]
  have hstart := FileContext.exists_startsOn_iff ht line
  by_cases hnode : ∃ n, ctx.SpeaksOf line n
  · obtain ⟨n, hn⟩ := hnode
    have hunmet : (ofPlan ctx options (Plan.make ctx options read a) a).unmetOn line =
        (checkBound ctx options ⟨line, n, t.filled read⟩).toList := by
      rw [unmetOn_make ht hn, hchecked, Option.bind_some]
    have hnotOrphan : ¬ (ofPlan ctx options (Plan.make ctx options read a) a).TypeOrphan ctx line :=
      fun h => h.1 (hstart.2 ⟨n, hn⟩)
    by_cases hmet : MetBy ctx n (t.filled read)
    · rw [(checkBound_eq_none_iff ctx options _).2 hmet] at hunmet
      obtain ⟨expected, hexpected, hmeets⟩ := metBy_iff.1 hmet
      refine Or.inr (Or.inr ⟨hnotOrphan, ?_, n, expected, hn, hexpected, hmeets, hunmet⟩)
      rintro ⟨m, -, -, hone⟩
      rw [hunmet] at hone
      cases hone
    · rw [checkBound_of_not_metBy hmet] at hunmet
      have hdiffers : ∀ expected, (t.filled read).expected? = some expected →
          TypeText.meets (t.filled read).kind (ctx.typeText n) expected = false := by
        intro expected hexpected
        rw [metBy_iff] at hmet
        simpa using fun hmeets => hmet ⟨expected, hexpected, hmeets⟩
      refine Or.inr (Or.inl ⟨hnotOrphan, ⟨n, hn, hdiffers, hunmet⟩, ?_⟩)
      rintro ⟨m, expected, -, -, -, hnone⟩
      rw [hunmet] at hnone
      cases hnone
  · have hno : ∀ n, ¬ ctx.SpeaksOf line n := not_exists.1 hnode
    have horphan : line ∈ (ofPlan ctx options (Plan.make ctx options read a) a).orphanLines :=
      (mem_orphanLines_ofPlan _ a line).2
        (Or.inl ((mem_pending_make ht).2 ⟨t, hline, hasks, mt hstart.1 hnode⟩))
    refine Or.inl ⟨⟨mt hstart.1 hnode, horphan, unmetOn_make_eq_nil ht hno⟩, ?_, ?_⟩
    · rintro ⟨n, hn, -⟩
      exact hno n hn
    · rintro ⟨n, expected, hn, -⟩
      exact hno n hn

theorem checkCaret_of_shows (ht : ctx.tree.Acyclic) {c : CaretAssertion} {n : NodeId}
    {actual : Text} (h : ctx.Shows c n actual) :
    checkCaret ctx (c, c.position.bind ctx.tree.locate) =
      if TypeText.normalize actual = TypeText.normalize c.expected then .met
      else .unmet ⟨.caret c, n, actual, some (.replaceText (c.replacement actual))⟩ := by
  obtain ⟨hnode, hinfo⟩ := (FileContext.shows_iff ht).1 h
  simp [checkCaret, hnode, hinfo, TypeText.meets]

theorem checkCaret_of_not_shows (ht : ctx.tree.Acyclic) {c : CaretAssertion}
    (h : ∀ n actual, ¬ ctx.Shows c n actual) :
    checkCaret ctx (c, c.position.bind ctx.tree.locate) = .orphan := by
  simp only [FileContext.shows_iff ht, not_and] at h
  rw [checkCaret]
  cases hnode : c.position.bind ctx.tree.locate with
  | none => rfl
  | some n =>
    cases hinfo : ctx.quickInfo? n with
    | none => simp [hinfo]
    | some actual => exact absurd hinfo (h n actual hnode)

theorem isOrphan_iff (ht : ctx.tree.Acyclic) (c : CaretAssertion) :
    (checkCaret ctx (c, c.position.bind ctx.tree.locate)).isOrphan = true ↔
      ∀ n actual, ¬ ctx.Shows c n actual := by
  constructor
  · intro h n actual hshows
    rw [checkCaret_of_shows ht hshows] at h
    split at h <;> cases h
  · intro h
    rw [checkCaret_of_not_shows ht h]
    rfl

theorem exactlyOne_caret (ht : ctx.tree.Acyclic) {f : Findings} {c : CaretAssertion}
    (hlisted : (∀ n actual, ¬ ctx.Shows c n actual) → c.line ∈ f.orphanLines) {entries : List Unmet}
    (hentries :
      entries = (checkCaret ctx (c, c.position.bind ctx.tree.locate)).unmet?.toList) :
    ExactlyOne (f.CaretOrphan ctx c entries) (CaretUnmet ctx c entries)
      (CaretMet ctx c entries) := by
  by_cases hshows : ∃ n actual, ctx.Shows c n actual
  · obtain ⟨n, actual, hshows⟩ := hshows
    have hnotOrphan : ¬ f.CaretOrphan ctx c entries := fun h => h.1 n actual hshows
    rw [checkCaret_of_shows ht hshows] at hentries
    by_cases heq : TypeText.normalize actual = TypeText.normalize c.expected
    · rw [if_pos heq] at hentries
      refine Or.inr (Or.inr ⟨hnotOrphan, ?_, n, actual, hshows, heq, hentries⟩)
      rintro ⟨m, other, -, -, hone⟩
      rw [hentries] at hone
      cases hone
    · rw [if_neg heq] at hentries
      refine Or.inr (Or.inl ⟨hnotOrphan, ⟨n, actual, hshows, heq, hentries⟩, ?_⟩)
      rintro ⟨m, other, -, -, hnone⟩
      rw [hentries] at hnone
      cases hnone
  · have hno : ∀ n actual, ¬ ctx.Shows c n actual := by simpa using hshows
    rw [checkCaret_of_not_shows ht hno] at hentries
    refine Or.inl ⟨⟨hno, hlisted hno, hentries⟩, ?_, ?_⟩
    · rintro ⟨n, actual, h, -⟩
      exact hno n actual h
    · rintro ⟨n, actual, h, -⟩
      exact hno n actual h

theorem carets_make :
    (Plan.make ctx options read a).carets = (if options.expectType then a.carets else []).map
      fun c => (c, c.position.bind ctx.tree.locate) := by
  rw [Plan.make]
  split <;> rfl

theorem mem_missingErrors_iff (errorLines : Std.ExtTreeSet Nat) :
    line ∈ missingErrors ctx errorLines ↔ line ∈ errorLines ∧
      ∀ span ∈ ctx.diagnostics, (LineTable.ofText ctx.source).lineIndex span.start ≠ line := by
  simp [missingErrors, Std.ExtTreeSet.mem_toList]

end Parts

/-- A check of assertions accounts for all of them. -/
theorem accounts_ofAssertions {σ : Type} [SnapshotStore σ] (ht : ctx.tree.Acyclic) (store : σ)
    (a : Assertions) :
    (ofAssertions ctx options store a).Accounts ctx options (SnapshotStore.read store ctx.file)
      a := by
  rw [ofAssertions]
  generalize SnapshotStore.read store ctx.file = read
  have horphans (line : Nat) := @mem_orphanLines_ofPlan ctx options (Plan.make ctx options read a) a
    line
  simp only [carets_make, List.mem_map, exists_exists_and_eq_and, isOrphan_iff ht,
    mem_pending_make ht] at horphans
  constructor
  case types =>
    intro line t hline hasks
    exact types_make ht hline hasks
  case otherLines =>
    intro line hnone
    have hchecked : a.types[line]?.filter options.asksFor = none := by
      simpa [Option.filter_eq_none_iff] using hnone
    by_cases hnode : ∃ n, ctx.SpeaksOf line n
    · obtain ⟨n, hn⟩ := hnode
      rw [unmetOn_make ht hn, hchecked]
      rfl
    · exact unmetOn_make_eq_nil ht (not_exists.1 hnode)
  case carets =>
    refine ⟨(if options.expectType then a.carets else []).map fun c =>
      (checkCaret ctx (c, c.position.bind ctx.tree.locate)).unmet?.toList, ?_, ?_⟩
    · rw [List.forall₂_map_right_iff, List.forall₂_same]
      intro c hc
      exact exactlyOne_caret ht (fun hno => (horphans c.line).2 (Or.inr ⟨c, hc, hno, rfl⟩)) rfl
    · rw [caretEntries_ofPlan, carets_make, List.flatMap_map, List.flatMap_def]
  case orphans_ascending =>
    simp only [ofPlan]
    exact toList_ascending _
  case mem_orphans =>
    intro line
    rw [horphans]
    cases options.expectType <;> simp [and_comm]
  case missingErrors_ascending =>
    simp only [ofPlan]
    split
    · exact (toList_ascending _).filter _
    · exact List.Pairwise.nil
  case mem_missingErrors =>
    intro line
    simp only [ofPlan]
    split
    · rename_i herror
      simp [herror, mem_missingErrors_iff]
    · rename_i herror
      simp [herror]
  case duplicates => rfl
  case mistakes => rfl

def mixedAssertions : Assertions where
  types := ((((∅ : Std.ExtTreeMap Nat TypeAssertion).insert 0 (.manual "1".toList)).insert 3
    (.snapshot "y".toList none)).insert 9 (.manual "T".toList))
  errorLines := .ofList [1, 4]
  carets := [.unattachable 7, { CaretAssertion.unattachable 1 with position := some 4 }]

theorem accounts_of_mixedAssertions :
    tidyFile.tree.Acyclic ∧
    (ofAssertions tidyFile {} ({} : MemoryStore) mixedAssertions).unmet.map Unmet.actual =
      ["readonly 1[]".toList, "let x: 1".toList] ∧
    (ofAssertions tidyFile {} ({} : MemoryStore) mixedAssertions).orphanLines = [7, 9] ∧
    (ofAssertions tidyFile {} ({} : MemoryStore) mixedAssertions).missingErrorLines = [1] ∧
    (ofAssertions tidyFile {} ({} : MemoryStore) mixedAssertions).Accounts tidyFile {}
      (SnapshotStore.read ({} : MemoryStore) tidyFile.file) mixedAssertions := by
  have hacyclic : tidyFile.tree.Acyclic := SyntaxTree.acyclic_of_lt (by decide)
  have haccounts := accounts_ofAssertions tidyFile {} hacyclic ({} : MemoryStore) mixedAssertions
  exact ⟨hacyclic, by decide +kernel, by decide +kernel, by decide +kernel, haccounts⟩

end Findings
end TypeComments
