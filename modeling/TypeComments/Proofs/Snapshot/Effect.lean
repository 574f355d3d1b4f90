import TypeComments.Proofs.Accounting
import TypeComments.Proofs.Snapshot.Memory
import TypeComments.Proofs.Snapshot.Writing

/-! What applying the fixes of a check does to a store in memory. The updates of a report are those
of the assertions bound to nodes, by ascending line, in whatever order the walk has met the nodes.
So of the texts for one name the one on the greatest line stays, and nothing else in the store
changes. -/

namespace TypeComments

namespace Findings

section Updates

variable (ctx : FileContext) (options : Options)

def updateFor (b : Bound) : Option SnapshotUpdate :=
  (checkBound ctx options b).bind fun u => u.fix.bind Fix.update?

def updateReport (b : Bound) : Option Report :=
  ((checkBound ctx options b).map (Report.ofUnmet ctx.source)).filter (·.update?.isSome)

/-- A bound assertion leads to an update of the snapshot `name` of `file`. -/
def renews (file name : Text) (b : Bound) : Bool :=
  (updateFor ctx options b).any fun u => u.file = file ∧ u.name = name

def updated (s : MemoryStore) (bs : List Bound) : MemoryStore :=
  s.writeAll ((bs.filterMap (updateFor ctx options)).map SnapshotUpdate.entry)

end Updates

variable {ctx : FileContext} {options : Options}

/-- An update is for a snapshot that is not met, and holds the type found. -/
theorem updateFor_eq_some_iff {b : Bound} {update : SnapshotUpdate} :
    updateFor ctx options b = some update ↔ ∃ name expected,
      b.assertion = .snapshot name expected ∧ ¬ MetBy ctx b.node b.assertion ∧
      options.disableSnapshotFix = false ∧
      update = { file := ctx.file, name := name, text := ctx.typeText b.node } := by
  obtain ⟨line, node, t⟩ := b
  by_cases hmet : MetBy ctx node t
  · simp [updateFor, (checkBound_eq_none_iff ctx options ⟨line, node, t⟩).2 hmet, hmet]
  · rw [updateFor, checkBound_of_not_metBy hmet]
    cases t with
    | manual expected => simp [fixFor]
    | snapshot name expected =>
      cases hfix : options.disableSnapshotFix <;> simp [fixFor, hfix, Fix.update?, hmet, eq_comm]

theorem of_updateFor {b : Bound} {update : SnapshotUpdate}
    (h : updateFor ctx options b = some update) :
    update.file = ctx.file ∧ update.text = ctx.typeText b.node ∧ update.applied = false := by
  obtain ⟨name, expected, -, -, -, rfl⟩ := updateFor_eq_some_iff.1 h
  exact ⟨rfl, rfl, rfl⟩

theorem update?_updateReport (b : Bound) :
    (updateReport ctx options b).bind Report.update? = updateFor ctx options b := by
  rw [updateReport, updateFor]
  cases checkBound ctx options b with
  | none => rfl
  | some u =>
    have hsame : (Report.ofUnmet ctx.source u).update? = u.fix.bind Fix.update? := rfl
    cases hu : u.fix.bind Fix.update? <;> simp [hsame, hu, Option.filter]

theorem location_of_updateReport {b : Bound} {r : Report}
    (h : updateReport ctx options b = some r) :
    r.diagnostic.location = .startOfLine b.line := by
  obtain ⟨hmap, -⟩ := Option.filter_eq_some_iff.1 h
  obtain ⟨u, hu, rfl⟩ := Option.map_eq_some_iff.1 hmap
  rw [Report.ofUnmet, expectation_of_checkBound hu]
  rcases b.assertion with _ | ⟨name, _ | expected⟩ <;> rfl

theorem filter_unsorted (plan : Plan) (a : Assertions) :
    (FileReport.unsorted ctx.source (ofPlan ctx options plan a)).filter (·.update?.isSome) =
      plan.binding.bound.filterMap (updateReport ctx options) := by
  have hnone {α : Type} (g : α → Report) (hg : ∀ x, (g x).update? = none) (xs : List α) :
      (xs.map g).filter (·.update?.isSome) = [] := by
    simp [List.filter_eq_nil_iff, hg]
  have hcarets : ((plan.carets.filterMap fun p => (checkCaret ctx p).unmet?).map
      (Report.ofUnmet ctx.source)).filter (·.update?.isSome) = [] := by
    rw [List.filter_eq_nil_iff]
    intro r hr
    obtain ⟨u, hu, rfl⟩ := List.mem_map.1 hr
    obtain ⟨p, -, hp⟩ := List.mem_filterMap.1 hu
    simp [Report.update?, Report.ofUnmet, (unmet_of_checkCaret ctx hp).2.2.1, Fix.update?]
  rw [FileReport.unsorted, List.filter_append, List.filter_append, List.filter_append,
    List.filter_append, hnone Report.ofMistake (fun _ => rfl),
    hnone Report.ofDuplicate (fun _ => rfl), hnone Report.ofMissingError (fun _ => rfl),
    hnone Report.ofOrphan (fun _ => rfl), ofPlan, List.map_append, List.filter_append, hcarets]
  simp only [List.nil_append, List.append_nil, List.map_filterMap, List.filter_filterMap]
  rfl

/-- The bound assertions by ascending line. -/
structure ByLine (bound bs : List Bound) : Prop where
  perm : bs.Perm bound
  ascending : bs.Pairwise fun x y => x.line < y.line

theorem ByLine.eq_of_line {bound bs : List Bound} (h : ByLine bound bs) {x y : Bound} (hx : x ∈ bs)
    (hy : y ∈ bs) (hline : x.line = y.line) : x = y := by
  have hnodup : (bs.map Bound.line).Nodup := List.pairwise_map.2 (h.ascending.imp Nat.ne_of_lt)
  exact List.inj_on_of_nodup_map hnodup hx hy hline

theorem exists_byLine {bound : List Bound} (h : bound.Pairwise fun x y => x.line ≠ y.line) :
    ∃ bs, ByLine bound bs := by
  have hperm := List.mergeSort_perm bound fun x y => decide (x.line ≤ y.line)
  have hle : (bound.mergeSort fun x y => decide (x.line ≤ y.line)).Pairwise fun x y =>
      decide (x.line ≤ y.line) = true :=
    List.pairwise_mergeSort (by simpa using fun _ _ _ => Nat.le_trans)
      (by simpa using fun _ _ => Nat.le_total _ _) bound
  refine ⟨_, hperm, (hle.and ((hperm.pairwise_iff Ne.symm).2 h)).imp ?_⟩
  rintro x y ⟨hxy, hne⟩
  exact Nat.lt_of_le_of_ne (of_decide_eq_true hxy) hne

theorem reports_ofPlan {plan : Plan} {bs : List Bound} (h : ByLine plan.binding.bound bs)
    (a : Assertions) :
    (FileReport.ofFindings ctx.file ctx.source (ofPlan ctx options plan a)).reports.filter
      (·.update?.isSome) = bs.filterMap (updateReport ctx options) := by
  have hperm : ((FileReport.ofFindings ctx.file ctx.source
      (ofPlan ctx options plan a)).reports.filter (·.update?.isSome)).Perm
        (bs.filterMap (updateReport ctx options)) := by
    refine ((FileReport.ofFindings_perm _ _ _).filter _).trans ?_
    rw [filter_unsorted]
    exact (h.perm.filterMap _).symm
  have hsorted : (bs.filterMap (updateReport ctx options)).Pairwise fun r r' =>
      r.le r' = true := by
    refine h.ascending.filterMap _ ?_
    intro x y hxy r hr r' hr'
    rw [Report.le, location_of_updateReport hr, location_of_updateReport hr', Location.le_iff]
    exact Or.inl (Nat.succ_lt_succ hxy)
  -- Sorting leaves no choice, since no two of these reports are at one place.
  refine hperm.eq_of_pairwise ?_ ((FileReport.ofFindings_pairwise _ _ _).filter _) hsorted
  intro r r' hr hr' hle hge
  obtain ⟨x, hx, hxr⟩ := List.mem_filterMap.1 (hperm.mem_iff.1 hr)
  obtain ⟨y, hy, hyr⟩ := List.mem_filterMap.1 hr'
  have hlocation := Location.le_antisymm hle hge
  rw [location_of_updateReport hxr, location_of_updateReport hyr] at hlocation
  obtain rfl := h.eq_of_line hx hy (Nat.succ.inj (congrArg Location.line hlocation))
  exact Option.some.inj (hxr.symm.trans hyr)

/-- The updates of a report are those of the bound assertions by ascending line. -/
theorem updates_ofPlan {plan : Plan} {bs : List Bound} (h : ByLine plan.binding.bound bs)
    (a : Assertions) :
    (FileReport.ofFindings ctx.file ctx.source (ofPlan ctx options plan a)).updates =
      bs.filterMap (updateFor ctx options) := by
  have hupdates (rs : List Report) : rs.filterMap Report.update? =
      (rs.filter (·.update?.isSome)).filterMap Report.update? := by
    rw [List.filterMap_filter]
    apply List.filterMap_congr
    intro r _
    cases hr : r.update? <;> simp
  rw [FileReport.updates, hupdates, reports_ofPlan h, List.filterMap_filterMap]
  apply List.filterMap_congr
  intro b _
  exact update?_updateReport b

theorem renews_iff {file name : Text} {b : Bound} :
    renews ctx options file name b = true ↔ file = ctx.file ∧ options.disableSnapshotFix = false ∧
      ∃ expected, b.assertion = .snapshot name expected ∧ ¬ MetBy ctx b.node b.assertion := by
  rw [renews, Option.any_eq_true]
  simp only [updateFor_eq_some_iff, decide_eq_true_eq]
  constructor
  · rintro ⟨_, ⟨name, expected, hb, hmet, hfix, rfl⟩, hfile, rfl⟩
    exact ⟨hfile.symm, hfix, expected, hb, hmet⟩
  · rintro ⟨rfl, hfix, expected, hb, hmet⟩
    exact ⟨_, ⟨name, expected, hb, hmet, hfix, rfl⟩, rfl, rfl⟩

theorem exists_update_iff {bs : List Bound} {file name : Text} :
    (file = ctx.file ∧ ∃ u ∈ bs.filterMap (updateFor ctx options), u.name = name) ↔
      ∃ b ∈ bs, renews ctx options file name b = true := by
  simp only [List.mem_filterMap, renews, Option.any_eq_true, decide_eq_true_eq]
  constructor
  · rintro ⟨rfl, u, ⟨b, hb, hu⟩, hname⟩
    exact ⟨b, hb, u, hu, (of_updateFor hu).1, hname⟩
  · rintro ⟨b, hb, u, hu, hfile, hname⟩
    exact ⟨hfile.symm.trans (of_updateFor hu).1, u, ⟨b, hb, hu⟩, hname⟩

theorem read_updated (s : MemoryStore) (bs : List Bound) (file name : Text) :
    (updated ctx options s bs).read file name =
      ((bs.reverse.find? (renews ctx options file name)).map fun b => ctx.typeText b.node).or
        (s.read file name) := by
  rw [updated, MemoryStore.read_writeAll, MemoryStore.lastText?, ← List.map_reverse,
    ← List.filterMap_reverse, List.find?_map, List.find?_filterMap]
  have hkey : (fun b => (updateFor ctx options b).any
      ((fun e : Text × Text × Text => decide (e.1 = file ∧ e.2.1 = name)) ∘ SnapshotUpdate.entry)) =
        renews ctx options file name := rfl
  rw [hkey]
  cases hlast : bs.reverse.find? (renews ctx options file name) with
  | none => rfl
  | some b =>
    have hb := List.find?_some hlast
    rw [renews, Option.any_eq_true] at hb
    obtain ⟨u, hu, -⟩ := hb
    simp [hu, SnapshotUpdate.entry, (of_updateFor hu).2.1]

/-- After updates by ascending line, a snapshot is the type of the last assertion that renews it. -/
theorem exists_last_of_renews {bs : List Bound} (h : bs.Pairwise fun x y => x.line < y.line)
    {file name : Text} (hrenews : ∃ b ∈ bs, renews ctx options file name b = true)
    (s : MemoryStore) :
    ∃ b ∈ bs, renews ctx options file name b = true ∧
      (∀ c ∈ bs, renews ctx options file name c = true → c = b ∨ c.line < b.line) ∧
      (updated ctx options s bs).read file name = some (ctx.typeText b.node) := by
  rw [read_updated]
  cases hlast : bs.reverse.find? (renews ctx options file name) with
  | none =>
    obtain ⟨b, hb, hrenew⟩ := hrenews
    exact absurd hrenew (List.find?_eq_none.1 hlast b (List.mem_reverse.2 hb))
  | some b =>
    obtain ⟨hb, front, back, hsplit, hfront⟩ := List.find?_eq_some_iff_append.1 hlast
    have hdescending := List.pairwise_reverse.2 h
    rw [hsplit, List.pairwise_append] at hdescending
    refine ⟨b, ?_, hb, ?_, rfl⟩
    · rw [← List.mem_reverse, hsplit]
      simp
    · intro c hc hrenew
      rw [← List.mem_reverse, hsplit, List.mem_append, List.mem_cons] at hc
      rcases hc with hc | rfl | hc
      · have hno := hfront c hc
        simp [hrenew] at hno
      · exact Or.inl rfl
      · exact Or.inr ((List.pairwise_cons.1 hdescending.2.1).1 c hc)

theorem read_updated_of_not_renews {bs : List Bound} {file name : Text}
    (h : ¬ ∃ b ∈ bs, renews ctx options file name b = true) (s : MemoryStore) :
    (updated ctx options s bs).read file name = s.read file name := by
  have hnone : bs.reverse.find? (renews ctx options file name) = none := by
    rw [List.find?_eq_none]
    intro b hb hrenew
    exact h ⟨b, List.mem_reverse.1 hb, hrenew⟩
  rw [read_updated, hnone]
  rfl

theorem store_ofPlan {plan : Plan} {bs : List Bound} (h : ByLine plan.binding.bound bs)
    (a : Assertions) (source : Text) (s : MemoryStore) :
    ((FileReport.ofFindings ctx.file ctx.source (ofPlan ctx options plan a)).applyFixes source
      s).store = updated ctx options s bs := by
  rw [FileReport.store_applyFixes, updates_ofPlan h]
  · rfl
  · intro u hu
    rw [updates_ofPlan h] at hu
    obtain ⟨b, -, hb⟩ := List.mem_filterMap.1 hu
    exact (of_updateFor hb).2.2

theorem mem_unmet_line_iff {plan : Plan} {a : Assertions} {u : Unmet} {line : Nat}
    {t : TypeAssertion} (hu : u.expectation = .line line t) :
    u ∈ (ofPlan ctx options plan a).unmet ↔ ∃ n, ⟨line, n, t⟩ ∈ plan.binding.bound ∧
      checkBound ctx options ⟨line, n, t⟩ = some u := by
  rw [ofPlan, List.mem_append, List.mem_filterMap, List.mem_filterMap]
  constructor
  · rintro (⟨b, hb, hbu⟩ | ⟨p, -, hp⟩)
    · rw [expectation_of_checkBound hbu] at hu
      obtain ⟨rfl, rfl⟩ := Expectation.line.inj hu
      exact ⟨b.node, hb, hbu⟩
    · rw [(unmet_of_checkCaret ctx hp).2.1] at hu
      cases hu
  · rintro ⟨n, hb, hbu⟩
    exact Or.inl ⟨_, hb, hbu⟩

/-- Of the unmet entries about the snapshot `name`, `u` is the one on the greatest line. -/
def IsLastOn (f : Findings) (name : Text) (u : Unmet) : Prop :=
  u ∈ f.unmet ∧ ∃ line expected, u.expectation = .line line (.snapshot name expected) ∧
    ∀ v ∈ f.unmet, ∀ k e, v.expectation = .line k (.snapshot name e) → v = u ∨ k < line

theorem isLastOn_of_renews {plan : Plan} {bs : List Bound} (h : ByLine plan.binding.bound bs)
    (a : Assertions) {file name : Text} {b : Bound} (hb : b ∈ bs)
    (hrenews : renews ctx options file name b = true)
    (hlast : ∀ c ∈ bs, renews ctx options file name c = true → c = b ∨ c.line < b.line) :
    ∃ u, (ofPlan ctx options plan a).IsLastOn name u ∧ u.actual = ctx.typeText b.node := by
  obtain ⟨rfl, hfix, expected, ht, hmet⟩ := renews_iff.1 hrenews
  obtain ⟨line, n, t⟩ := b
  obtain rfl : t = .snapshot name expected := ht
  refine ⟨_, ⟨(mem_unmet_line_iff rfl).2 ⟨n, h.perm.mem_iff.1 hb, checkBound_of_not_metBy hmet⟩,
    line, expected, rfl, ?_⟩, rfl⟩
  intro v hv k e hk
  obtain ⟨m, hc, hcv⟩ := (mem_unmet_line_iff hk).1 hv
  have hnotMet : ¬ MetBy ctx m (.snapshot name e) := by
    intro hmet'
    rw [(checkBound_eq_none_iff ctx options ⟨k, m, .snapshot name e⟩).2 hmet'] at hcv
    cases hcv
  rcases hlast _ (h.perm.mem_iff.2 hc) (renews_iff.2 ⟨rfl, hfix, e, rfl, hnotMet⟩) with heq | hlt
  · cases heq
    rw [checkBound_of_not_metBy hmet] at hcv
    exact Or.inl (Option.some.inj hcv).symm
  · exact Or.inr hlt

end Findings

variable (ctx : FileContext) (options : Options)

namespace Plan

def ofSource {σ : Type} [SnapshotStore σ] (store : σ) : Plan :=
  make ctx options (SnapshotStore.read store ctx.file) (Assertions.ofSource ctx.source)

/-- The same plan with its assertions bound in another order. -/
def inOrder (plan : Plan) (bs : List Bound) : Plan :=
  { plan with binding := { plan.binding with bound := bs } }

theorem exists_byLine {σ : Type} [SnapshotStore σ] (store : σ) :
    ∃ bs, Findings.ByLine (ofSource ctx options store).binding.bound bs :=
  Findings.exists_byLine (Binding.bound_ofTree_pairwise _ _ _)

end Plan

theorem checkFile_eq_ofFindings {σ : Type} [SnapshotStore σ] (store : σ)
    (hfile : ctx.checker.containsFile ctx.file = true)
    (hmark : Directive.mayOccur ctx.source = true) :
    checkFile ctx options store =
      FileReport.ofFindings ctx.file ctx.source (Findings.ofSource ctx options store) := by
  rw [checkFile, if_pos hfile, if_pos hmark]

theorem updates_checkFile_eq_nil {σ : Type} [SnapshotStore σ] (store : σ)
    (h : ¬ (ctx.checker.containsFile ctx.file = true ∧ Directive.mayOccur ctx.source = true)) :
    (checkFile ctx options store).updates = [] := by
  unfold checkFile
  split
  · rename_i hfile
    rw [if_neg fun hmark => h ⟨hfile, hmark⟩]
    rfl
  · rfl

/-- What applying the fixes of a check makes of a store in memory. -/
structure UpdatesStore (s s' : MemoryStore) : Prop where
  last : ∀ name, (∃ update ∈ (checkFile ctx options s).updates, update.name = name) →
    ∃ u, (Findings.ofSource ctx options s).IsLastOn name u ∧ s'.read ctx.file name = some u.actual
  kept : ∀ file name,
    ¬ (file = ctx.file ∧ ∃ update ∈ (checkFile ctx options s).updates, update.name = name) →
      s'.read file name = s.read file name
  anyOrder : ctx.checker.containsFile ctx.file = true → Directive.mayOccur ctx.source = true →
    ∀ bs, bs.Perm (Plan.ofSource ctx options s).binding.bound →
      ((FileReport.ofFindings ctx.file ctx.source (Findings.ofPlan ctx options
        ((Plan.ofSource ctx options s).inOrder bs) (Assertions.ofSource ctx.source))).applyFixes
          ctx.source s).store = s'

/-- Applying the fixes of a check gives each snapshot that is to be updated the type of its last
unmet assertion, and leaves the others alone. -/
theorem updatesStore_checkFile (s : MemoryStore) :
    UpdatesStore ctx options s ((checkFile ctx options s).applyFixes ctx.source s).store := by
  by_cases hlooked : ctx.checker.containsFile ctx.file = true ∧
      Directive.mayOccur ctx.source = true
  · obtain ⟨bs, hbs⟩ := Plan.exists_byLine ctx options s
    have hcheck : checkFile ctx options s = FileReport.ofFindings ctx.file ctx.source
        (Findings.ofPlan ctx options (Plan.ofSource ctx options s)
          (Assertions.ofSource ctx.source)) :=
      checkFile_eq_ofFindings ctx options s hlooked.1 hlooked.2
    constructor
    case last =>
      intro name hname
      rw [hcheck, Findings.updates_ofPlan hbs] at hname
      obtain ⟨b, hb, hrenews, hlast, hread⟩ := Findings.exists_last_of_renews hbs.ascending
        (Findings.exists_update_iff.1 ⟨rfl, hname⟩) s
      obtain ⟨u, hu, hactual⟩ := Findings.isLastOn_of_renews hbs (Assertions.ofSource ctx.source)
        hb hrenews hlast
      refine ⟨u, hu, ?_⟩
      rw [hcheck, Findings.store_ofPlan hbs, hread, hactual]
    case kept =>
      intro file name hno
      rw [hcheck, Findings.updates_ofPlan hbs, Findings.exists_update_iff] at hno
      rw [hcheck, Findings.store_ofPlan hbs, Findings.read_updated_of_not_renews hno]
    case anyOrder =>
      intro _ _ bs' hperm
      have hbs' : Findings.ByLine ((Plan.ofSource ctx options s).inOrder bs').binding.bound bs :=
        ⟨hbs.perm.trans hperm.symm, hbs.ascending⟩
      rw [hcheck, Findings.store_ofPlan hbs, Findings.store_ofPlan hbs']
  · have hnil := updates_checkFile_eq_nil ctx options s hlooked
    have hstore : ((checkFile ctx options s).applyFixes ctx.source s).store = s := by
      rw [FileReport.store_applyFixes (by simp [hnil]), hnil]
      rfl
    rw [hstore]
    refine ⟨by simp [hnil], fun _ _ _ => rfl, ?_⟩
    intro hfile hmark
    exact absurd ⟨hfile, hmark⟩ hlooked

def twoSnapshots (upper lower : Text) : FileContext where
  file := "a.ts".toList
  source := "// $ExpectTypeSnapshot n\nf();\n// $ExpectTypeSnapshot n\ng();".toList
  tree := ⟨#[⟨"File", ⟨0, 59⟩, .other, [2, 1]⟩, ⟨"Call", ⟨25, 29⟩, .other, []⟩,
    ⟨"Call", ⟨55, 59⟩, .other, []⟩]⟩
  checker := ⟨fun _ => true, fun n => some (if n = 1 then upper else lower)⟩
  service := ⟨fun _ _ => none⟩
  diagnostics := []

theorem lower_snapshot_stays :
    (Findings.ofSource (twoSnapshots "A".toList "B".toList) {} ({} : MemoryStore)).unmet.map
      Unmet.actual = ["B".toList, "A".toList] ∧
    ((checkFile (twoSnapshots "A".toList "B".toList) {} ({} : MemoryStore)).applyFixes
      (twoSnapshots "A".toList "B".toList).source ({} : MemoryStore)).store.read "a.ts".toList
        "n".toList = some "B".toList := by
  have hunmet : (Findings.ofSource (twoSnapshots "A".toList "B".toList) {}
      ({} : MemoryStore)).unmet =
        [⟨.line 3 (.snapshot "n".toList none), 2, "B".toList,
          some (.updateSnapshot ⟨"a.ts".toList, "n".toList, "B".toList, false⟩)⟩,
        ⟨.line 1 (.snapshot "n".toList none), 1, "A".toList,
          some (.updateSnapshot ⟨"a.ts".toList, "n".toList, "A".toList, false⟩)⟩] := by
    decide +kernel
  have hupdate : ⟨"a.ts".toList, "n".toList, "B".toList, false⟩ ∈
      (checkFile (twoSnapshots "A".toList "B".toList) {} ({} : MemoryStore)).updates := by
    rw [checkFile_eq_ofFindings _ _ _ rfl (by decide +kernel), FileReport.updates,
      ((FileReport.ofFindings_perm _ _ _).filterMap _).mem_iff, FileReport.unsorted, hunmet]
    simp [Report.update?, Report.ofUnmet, Fix.update?]
  obtain ⟨u, ⟨hu, line, expected, hline, hlast⟩, hread⟩ :=
    (updatesStore_checkFile (twoSnapshots "A".toList "B".toList) {} {}).last _ ⟨_, hupdate, rfl⟩
  rw [hunmet] at hu hlast
  refine ⟨by rw [hunmet]; rfl, hread.trans ?_⟩
  rcases List.mem_cons.1 hu with rfl | hu
  · rfl
  · obtain rfl := List.mem_singleton.1 hu
    obtain ⟨rfl, -⟩ := Expectation.line.inj hline
    rcases hlast _ List.mem_cons_self 3 none rfl with heq | hlt
    · cases heq
    · omega

end TypeComments
