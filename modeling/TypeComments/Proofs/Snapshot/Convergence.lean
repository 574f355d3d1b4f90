import TypeComments.Proofs.Snapshot.Effect
import TypeComments.Proofs.Unmarked

/-! A check after the fixes of a check. If the assertions that name a snapshot agree on its type,
then the second check finds all snapshots in place, and for the rest just what the first has found:
the store does not decide which node an assertion is about, and each name was given the type of its
nodes. -/

namespace TypeComments

@[simp] theorem TypeAssertion.filled_filled (read read' : Text → Option Text) (t : TypeAssertion) :
    (t.filled read).filled read' = t.filled read' := by
  cases t <;> rfl

/-- Any two lines that name one snapshot speak of nodes of one type. -/
def FileContext.SnapshotsAgree (ctx : FileContext) : Prop :=
  ∀ (name : Text) (line line' : Nat) (expected expected' : Option Text) (n n' : NodeId),
    (Assertions.ofSource ctx.source).types[line]? = some (.snapshot name expected) →
    (Assertions.ofSource ctx.source).types[line']? = some (.snapshot name expected') →
    ctx.SpeaksOf line n → ctx.SpeaksOf line' n' → ctx.typeText n = ctx.typeText n'

def Unmet.isOnSnapshot (u : Unmet) : Bool :=
  u.reason = .snapshotNotFound ∨ u.reason = .snapshotMismatch

namespace Plan

variable (ctx : FileContext) (options : Options) {read : Text → Option Text} {a : Assertions}

/-- Reading other snapshots changes what bound assertions expect, and nothing else. -/
theorem make_binding (read read' : Text → Option Text) (a : Assertions) :
    (make ctx options read' a).binding =
      (make ctx options read a).binding.map (TypeAssertion.filled read') := by
  have hpending : (a.types.filterMap fun _ t => t.enable options read') =
      (a.types.filterMap fun _ t => t.enable options read).map fun _ =>
        TypeAssertion.filled read' := by
    apply Std.ExtTreeMap.ext_getElem?
    intro line
    rw [Std.ExtTreeMap.getElem?_map, TypeAssertion.getElem?_enable, TypeAssertion.getElem?_enable,
      Option.map_map]
    congr 1
    funext t
    exact (TypeAssertion.filled_filled read read' t).symm
  rw [make, hpending, Binding.ofTree_map]
  rfl

variable {ctx options}

theorem of_mem_bound (ht : ctx.tree.Acyclic) {b : Bound}
    (hb : b ∈ (make ctx options read a).binding.bound) :
    ctx.SpeaksOf b.line b.node ∧ ∃ t, a.types[b.line]? = some t ∧ b.assertion = t.filled read := by
  obtain ⟨first, hfirst, hnode, hline⟩ := (Binding.mem_bound_ofTree _ _ _ b).1 hb
  refine ⟨(Findings.speaksOf_iff ctx ht b.line b.node).2 ⟨first, hfirst, hnode⟩, ?_⟩
  rw [TypeAssertion.getElem?_enable] at hline
  obtain ⟨t, ht', hfilled⟩ := Option.map_eq_some_iff.1 hline
  exact ⟨t, (Option.filter_eq_some_iff.1 ht').1, hfilled.symm⟩

theorem of_mem_bound_snapshot (ht : ctx.tree.Acyclic) {b : Bound}
    (hb : b ∈ (make ctx options read a).binding.bound) {name : Text} {expected : Option Text}
    (hname : b.assertion = .snapshot name expected) :
    ctx.SpeaksOf b.line b.node ∧ expected = read name ∧
      ∃ e, a.types[b.line]? = some (.snapshot name e) := by
  obtain ⟨hnode, t, hline, hfilled⟩ := of_mem_bound ht hb
  rw [hname] at hfilled
  cases t with
  | manual expected => cases hfilled
  | snapshot name' e =>
    obtain ⟨rfl, rfl⟩ := TypeAssertion.snapshot.inj hfilled
    exact ⟨hnode, rfl, e, hline⟩

end Plan

namespace Findings

variable {ctx : FileContext} {options : Options} {s : MemoryStore}

theorem store_checkFile (hfile : ctx.checker.containsFile ctx.file = true) {bs : List Bound}
    (h : ByLine (Plan.ofSource ctx options s).binding.bound bs) (source : Text) :
    ((checkFile ctx options s).applyFixes source s).store = updated ctx options s bs := by
  rw [checkFile_of_containsFile ctx options s hfile]
  exact store_ofPlan h _ _ _

/-- If its assertions agree, a bound snapshot is met after the updates. -/
theorem metBy_updated (ht : ctx.tree.Acyclic) (hfix : options.disableSnapshotFix = false)
    (hagree : ctx.SnapshotsAgree) {bs : List Bound}
    (h : ByLine (Plan.ofSource ctx options s).binding.bound bs) {b : Bound} (hb : b ∈ bs)
    {name : Text} {expected : Option Text} (hname : b.assertion = .snapshot name expected) :
    MetBy ctx b.node (.snapshot name ((updated ctx options s bs).read ctx.file name)) := by
  obtain ⟨hnode, hexpected, e, hline⟩ :=
    Plan.of_mem_bound_snapshot ht (h.perm.mem_iff.1 hb) hname
  -- A snapshot that was written holds the type that all its lines have. One that was not written
  -- stays as it was, and then no line missed it.
  by_cases hrenews : ∃ c ∈ bs, renews ctx options ctx.file name c = true
  · obtain ⟨c, hc, hcrenews, -, hread⟩ := exists_last_of_renews h.ascending hrenews s
    obtain ⟨-, -, expected', hcname, -⟩ := renews_iff.1 hcrenews
    obtain ⟨hcnode, -, e', hcline⟩ :=
      Plan.of_mem_bound_snapshot ht (h.perm.mem_iff.1 hc) hcname
    have htype := hagree name b.line c.line e e' b.node c.node hline hcline hnode hcnode
    rw [hread, metBy_iff, htype]
    exact ⟨_, rfl, TypeText.meets_self _ _⟩
  · rw [read_updated_of_not_renews hrenews]
    by_contra hmet
    refine hrenews ⟨b, hb, renews_iff.2 ⟨rfl, hfix, expected, hname, ?_⟩⟩
    rw [hname, hexpected]
    exact hmet

theorem checkBound_updated (ht : ctx.tree.Acyclic) (hfix : options.disableSnapshotFix = false)
    (hagree : ctx.SnapshotsAgree) {bs : List Bound}
    (h : ByLine (Plan.ofSource ctx options s).binding.bound bs) {b : Bound} (hb : b ∈ bs) :
    checkBound ctx options { b with
      assertion := b.assertion.filled ((updated ctx options s bs).read ctx.file) } =
      (checkBound ctx options b).filter (!·.isOnSnapshot) := by
  cases hname : b.assertion with
  | manual expected =>
    have hsame : ({ b with assertion := .manual expected } : Bound) = b := by rw [← hname]
    rw [TypeAssertion.filled, hsame]
    cases hu : checkBound ctx options b with
    | none => rfl
    | some u =>
      simp [Unmet.isOnSnapshot, Unmet.reason, expectation_of_checkBound hu, hname, Option.filter]
  | snapshot name expected =>
    have hmet := metBy_updated ht hfix hagree h hb hname
    rw [TypeAssertion.filled, (checkBound_eq_none_iff ctx options _).2 hmet]
    symm
    rw [Option.filter_eq_none_iff]
    intro u hu
    cases expected <;>
      simp [Unmet.isOnSnapshot, Unmet.reason, expectation_of_checkBound hu, hname]

/-- The second findings are the first without what these say about snapshots. -/
structure Settled (first second : Findings) : Prop where
  settled : ∀ u ∈ second.unmet, u.reason ≠ .snapshotNotFound ∧ u.reason ≠ .snapshotMismatch
  others : second.unmet = first.unmet.filter (!·.isOnSnapshot)
  orphanLines : second.orphanLines = first.orphanLines
  duplicateLines : second.duplicateLines = first.duplicateLines
  missingErrorLines : second.missingErrorLines = first.missingErrorLines
  mistakes : second.mistakes = first.mistakes

theorem settled_ofPlan {plan plan' : Plan} (hcarets : plan'.carets = plan.carets)
    (horphans : plan'.binding.orphanLines = plan.binding.orphanLines)
    (hbound : plan'.binding.bound.filterMap (checkBound ctx options) =
      (plan.binding.bound.filterMap (checkBound ctx options)).filter (!·.isOnSnapshot))
    (a : Assertions) : Settled (ofPlan ctx options plan a) (ofPlan ctx options plan' a) := by
  have hcaretEntries : (plan.carets.filterMap fun p => (checkCaret ctx p).unmet?).filter
      (!·.isOnSnapshot) = plan.carets.filterMap fun p => (checkCaret ctx p).unmet? := by
    rw [List.filter_eq_self]
    intro u hu
    obtain ⟨p, -, hp⟩ := List.mem_filterMap.1 hu
    simp [Unmet.isOnSnapshot, Unmet.reason, (unmet_of_checkCaret ctx hp).2.1]
  have hothers : (ofPlan ctx options plan' a).unmet =
      (ofPlan ctx options plan a).unmet.filter (!·.isOnSnapshot) := by
    simp only [ofPlan, List.filter_append, hbound, hcarets, hcaretEntries]
  refine ⟨?_, hothers, ?_, rfl, rfl, rfl⟩
  · intro u hu
    rw [hothers] at hu
    simpa [Unmet.isOnSnapshot] using (List.mem_filter.1 hu).2
  · simp only [ofPlan, horphans, hcarets]

end Findings

/-- When the fixes of a check have been applied, a second check has nothing to say about snapshots
and says the same of everything else. -/
theorem settled_applyFixes (ctx : FileContext) (options : Options) (s : MemoryStore)
    (hfile : ctx.checker.containsFile ctx.file = true) (ht : ctx.tree.Acyclic)
    (hfix : options.disableSnapshotFix = false) (hagree : ctx.SnapshotsAgree) :
    Findings.Settled (Findings.ofSource ctx options s) (Findings.ofSource ctx options
      ((checkFile ctx options s).applyFixes ctx.source s).store) := by
  obtain ⟨bs, hbs⟩ := Plan.exists_byLine ctx options s
  rw [Findings.store_checkFile hfile hbs]
  have hbinding : (Plan.ofSource ctx options (Findings.updated ctx options s bs)).binding =
      (Plan.ofSource ctx options s).binding.map
        (TypeAssertion.filled ((Findings.updated ctx options s bs).read ctx.file)) :=
    Plan.make_binding ctx options _ _ _
  have hcarets : (Plan.ofSource ctx options (Findings.updated ctx options s bs)).carets =
      (Plan.ofSource ctx options s).carets := rfl
  refine Findings.settled_ofPlan hcarets ?_ ?_ (Assertions.ofSource ctx.source)
  · rw [hbinding, Binding.orphanLines, Binding.map, Std.ExtTreeMap.keys_map]
    rfl
  · rw [hbinding, Binding.map, List.filterMap_map, List.filter_filterMap]
    apply List.filterMap_congr
    intro b hb
    exact Findings.checkBound_updated ht hfix hagree hbs (hbs.perm.mem_iff.2 hb)

theorem twoSnapshots_settled :
    (twoSnapshots "A".toList "A".toList).tree.Acyclic ∧
    (twoSnapshots "A".toList "A".toList).SnapshotsAgree ∧
    (Findings.ofSource (twoSnapshots "A".toList "A".toList) {} ({} : MemoryStore)).unmet.map
      Unmet.reason = [.snapshotNotFound, .snapshotNotFound] ∧
    Findings.Settled
      (Findings.ofSource (twoSnapshots "A".toList "A".toList) {} ({} : MemoryStore))
      (Findings.ofSource (twoSnapshots "A".toList "A".toList) {}
        ((checkFile (twoSnapshots "A".toList "A".toList) {} ({} : MemoryStore)).applyFixes
          (twoSnapshots "A".toList "A".toList).source ({} : MemoryStore)).store) := by
  have hacyclic : (twoSnapshots "A".toList "A".toList).tree.Acyclic :=
    SyntaxTree.acyclic_of_lt (by decide)
  have hagree : (twoSnapshots "A".toList "A".toList).SnapshotsAgree := by
    intro _ _ _ _ _ n n' _ _ _ _
    simp [FileContext.typeText, twoSnapshots]
  exact ⟨hacyclic, hagree, by decide +kernel,
    settled_applyFixes _ {} {} rfl hacyclic rfl hagree⟩

end TypeComments
