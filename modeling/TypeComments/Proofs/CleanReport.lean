import TypeComments.Proofs.Report
import TypeComments.Proofs.Satisfied

/-! A check reports nothing exactly on satisfied files. Each list of findings is empty under a
condition on the records of the source, and the conditions together say that every record is met and
that no line has two of a sort. -/

namespace TypeComments

namespace Assertions

variable {rs : List Record} {k : Nat}

theorem types_foldl_of_single (h : rs.countP (fun r => (r.typeOn? k).isSome) ≤ 1)
    (t : TypeAssertion) : (rs.foldl add {}).types[k]? = some t ↔ .type k t ∈ rs := by
  rw [← List.length_filterMap_eq_countP] at h
  rw [types_foldl, ← Record.mem_filterMap_typeOn?]
  match hxs : rs.filterMap (Record.typeOn? k), h with
  | [], _ => simp
  | [x], _ => simp [eq_comm]
  | _ :: _ :: _, h => simp at h

theorem mem_errorLines_foldl_of_single (h : rs.countP (Record.isErrorOn k) ≤ 1) :
    k ∈ (rs.foldl add {}).errorLines ↔ .error k ∈ rs := by
  have hpos : 0 < rs.countP (Record.isErrorOn k) ↔ .error k ∈ rs := by
    simp [List.countP_pos_iff, Record.isErrorOn_iff]
  rw [mem_errorLines_foldl, ← hpos]
  omega

theorem duplicateLines_foldl_eq_nil_iff :
    (rs.foldl add {}).duplicateLines = [] ↔
      ∀ k, rs.countP (fun r => (r.typeOn? k).isSome) ≤ 1 ∧ rs.countP (Record.isErrorOn k) ≤ 1 := by
  simp only [List.eq_nil_iff_forall_not_mem, mem_duplicateLines_foldl,
    List.length_filterMap_eq_countP]
  apply forall_congr'
  intro k
  omega

end Assertions

namespace Findings

variable (ctx : FileContext) (options : Options)

def MetBy (n : NodeId) (t : TypeAssertion) : Prop :=
  t.expected?.any (TypeText.meets t.kind (ctx.typeText n)) = true

theorem checkBound_eq_none_iff (b : Bound) :
    checkBound ctx options b = none ↔ MetBy ctx b.node b.assertion := by
  rw [checkBound, MetBy]
  split
  · rename_i h; simp [h]
  · rename_i h; simp [h]

theorem speaksOf_iff (ht : ctx.tree.Acyclic) (line : Nat) (n : NodeId) :
    ctx.SpeaksOf line n ↔ ∃ first,
      (ctx.tree.descendants SyntaxTree.root).find? (fun m =>
        Binding.lineOf ctx.tree (LineTable.ofText ctx.source) m = line) = some first ∧
      n = ctx.tree.retarget first := by
  have hwalk := SyntaxTree.preOrder_descendants ht
  constructor
  · rintro ⟨ns, first, hns, hfirst, hn⟩
    rw [hns.unique hwalk] at hfirst
    exact ⟨first, hfirst, hn⟩
  · rintro ⟨first, hfirst, hn⟩
    exact ⟨_, first, hwalk, hfirst, hn⟩

theorem binding_clean_iff (ht : ctx.tree.Acyclic) (pending : Std.ExtTreeMap Nat TypeAssertion) :
    ((Binding.ofTree ctx.tree (LineTable.ofText ctx.source) pending).bound.filterMap
        (checkBound ctx options) = [] ∧
      (Binding.ofTree ctx.tree (LineTable.ofText ctx.source) pending).orphanLines = []) ↔
      ∀ k t, pending[k]? = some t → ∃ n, ctx.SpeaksOf k n ∧ MetBy ctx n t := by
  have hbound := Binding.mem_bound_ofTree ctx.tree (LineTable.ofText ctx.source) pending
  have hpending := Binding.pending_ofTree ctx.tree (LineTable.ofText ctx.source) pending
  generalize Binding.ofTree ctx.tree (LineTable.ofText ctx.source) pending = b at hbound hpending
  rw [List.filterMap_eq_nil_iff, Binding.orphanLines, Std.ExtTreeMap.keys_eq_nil_iff,
    Std.ExtTreeMap.eq_empty_iff_forall_not_mem]
  constructor
  · rintro ⟨hmet, hempty⟩ k t hkt
    have hnone : b.pending[k]? = none := Std.ExtTreeMap.getElem?_eq_none (hempty k)
    rw [hpending, hkt] at hnone
    have hany : (ctx.tree.descendants SyntaxTree.root).any (fun n =>
        Binding.lineOf ctx.tree (LineTable.ofText ctx.source) n = k) = true := by
      by_contra hno
      simp [hno] at hnone
    rw [← List.isSome_find?] at hany
    obtain ⟨first, hfirst⟩ := Option.isSome_iff_exists.1 hany
    refine ⟨ctx.tree.retarget first, (speaksOf_iff ctx ht k _).2 ⟨first, hfirst, rfl⟩, ?_⟩
    have hmem : (⟨k, ctx.tree.retarget first, t⟩ : Bound) ∈ b.bound :=
      (hbound _).2 ⟨first, hfirst, rfl, hkt⟩
    exact (checkBound_eq_none_iff ctx options _).1 (hmet _ hmem)
  · intro h
    constructor
    · intro x hx
      obtain ⟨first, hfirst, hnode, hxt⟩ := (hbound x).1 hx
      obtain ⟨n, hn, hmet⟩ := h x.line x.assertion hxt
      obtain ⟨first', hfirst', rfl⟩ := (speaksOf_iff ctx ht x.line n).1 hn
      rw [hfirst] at hfirst'
      obtain rfl := Option.some.inj hfirst'
      rw [checkBound_eq_none_iff, hnode]
      exact hmet
    · intro k hk
      obtain ⟨t, ht'⟩ := Option.isSome_iff_exists.1 (Std.ExtTreeMap.mem_iff_isSome_getElem?.1 hk)
      rw [hpending] at ht'
      split at ht'
      · cases ht'
      · rename_i hany
        obtain ⟨n, hn, -⟩ := h k t ht'
        obtain ⟨first, hfirst, -⟩ := (speaksOf_iff ctx ht k n).1 hn
        apply hany
        rw [← List.isSome_find?, hfirst]
        rfl

theorem verdict_clean_iff (v : CaretVerdict) :
    (v.unmet? = none ∧ ¬ v.isOrphan = true) ↔ v = .met := by
  cases v <;> simp [CaretVerdict.unmet?, CaretVerdict.isOrphan]

theorem carets_clean_iff (ps : List (CaretAssertion × Option NodeId)) :
    (ps.filterMap (fun p => (checkCaret ctx p).unmet?) = [] ∧
      ps.filter (fun p => (checkCaret ctx p).isOrphan) = []) ↔
      ∀ p ∈ ps, checkCaret ctx p = .met := by
  simp only [List.filterMap_eq_nil_iff, List.filter_eq_nil_iff, ← verdict_clean_iff]
  exact forall₂_and.symm

theorem missingErrors_eq_nil_iff (errorLines : Std.ExtTreeSet Nat) :
    missingErrors ctx errorLines = [] ↔ ∀ k ∈ errorLines, ∃ span ∈ ctx.diagnostics,
      (LineTable.ofText ctx.source).lineIndex span.start = k := by
  simp [missingErrors, List.filter_eq_nil_iff]

theorem filter_asksFor {options : Options} (hType : options.expectType = true)
    (hSnapshot : options.expectTypeSnapshot = true) (t? : Option TypeAssertion) :
    t?.filter options.asksFor = t? := by
  rcases t? with _ | t
  · rfl
  · cases t <;> simp [Options.asksFor, hType, hSnapshot]

theorem kind_filled (read : Text → Option Text) (t : TypeAssertion) :
    (t.filled read).kind = t.kind := by
  cases t <;> rfl

/-- With every check on, a plan that is carried out finds nothing if all pending assertions get a
node that meets them and all carets are met, on top of what the assertions say by themselves. -/
theorem ofPlan_eq_empty_iff (ht : ctx.tree.Acyclic) (hType : options.expectType = true)
    (hSnapshot : options.expectTypeSnapshot = true) (hError : options.expectError = true)
    (read : Text → Option Text) (a : Assertions) :
    ofPlan ctx options (Plan.make ctx options read a) a = {} ↔
      (∀ k t, a.types[k]? = some t → ∃ n, ctx.SpeaksOf k n ∧ MetBy ctx n (t.filled read)) ∧
      (∀ c ∈ a.carets, checkCaret ctx (c, c.position.bind ctx.tree.locate) = .met) ∧
      a.duplicateLines = [] ∧ missingErrors ctx a.errorLines = [] ∧ a.mistakes = [] := by
  have hset (ls : List Nat) : (Std.ExtTreeSet.ofList ls).toList = [] ↔ ls = [] := by simp
  have hpending := binding_clean_iff ctx options ht
    (a.types.filterMap fun _ t => t.enable options read)
  have hcarets := carets_clean_iff ctx
    (a.carets.map fun c => (c, c.position.bind ctx.tree.locate))
  simp only [TypeAssertion.getElem?_enable, filter_asksFor hType hSnapshot,
    Option.map_eq_some_iff] at hpending
  rw [List.forall_mem_map] at hcarets
  simp only [ofPlan, Plan.make, hType, hError, if_true, Findings.mk.injEq, hset,
    List.append_eq_nil_iff, List.map_eq_nil_iff]
  rw [← hcarets]
  have htypes : (∀ k t, a.types[k]? = some t →
      ∃ n, ctx.SpeaksOf k n ∧ MetBy ctx n (t.filled read)) ↔ ∀ k t',
      (∃ t, a.types[k]? = some t ∧ t.filled read = t') → ∃ n, ctx.SpeaksOf k n ∧ MetBy ctx n t' := by
    constructor
    · rintro h k _ ⟨t, hkt, rfl⟩
      exact h k t hkt
    · intro h k t hkt
      exact h k _ ⟨t, hkt, rfl⟩
  rw [htypes, ← hpending]
  tauto

/-- Nothing is to find in what records leave behind, if no line has two of a sort, when every one
of them is met. -/
theorem clean_foldl_iff {rs : List Record} {read : Text → Option Text}
    (hcount : ∀ k, rs.countP (fun r => (r.typeOn? k).isSome) ≤ 1 ∧
      rs.countP (Record.isErrorOn k) ≤ 1) :
    ((∀ k t, (rs.foldl Assertions.add {}).types[k]? = some t →
        ∃ n, ctx.SpeaksOf k n ∧ MetBy ctx n (t.filled read)) ∧
      (∀ c ∈ (rs.foldl Assertions.add {}).carets,
        checkCaret ctx (c, c.position.bind ctx.tree.locate) = .met) ∧
      missingErrors ctx (rs.foldl Assertions.add {}).errorLines = [] ∧
      (rs.foldl Assertions.add {}).mistakes = []) ↔ ∀ r ∈ rs, r.Met ctx read := by
  have htypes k t := Assertions.types_foldl_of_single (hcount k).1 t
  have herrors k := Assertions.mem_errorLines_foldl_of_single (hcount k).2
  have hcarets (c : CaretAssertion) : c ∈ (rs.foldl Assertions.add {}).carets ↔ .caret c ∈ rs := by
    rw [Assertions.carets_foldl, ← Record.mem_filterMap_caret?]
    rfl
  have hmistakes (m : MistakeAt) :
      m ∈ (rs.foldl Assertions.add {}).mistakes ↔ .mistake m ∈ rs := by
    rw [Assertions.mistakes_foldl, ← Record.mem_filterMap_mistake?]
    rfl
  rw [missingErrors_eq_nil_iff, List.eq_nil_iff_forall_not_mem]
  simp only [htypes, herrors, hcarets, hmistakes, MetBy, kind_filled]
  constructor
  · rintro ⟨htype, hcaret, herror, hmistake⟩ r hr
    cases r with
    | type k t => exact htype k t hr
    | error k => exact herror k hr
    | mistake m => exact hmistake m hr
    | caret c => exact hcaret c hr
  · intro h
    exact ⟨fun k t hr => h _ hr, fun c hr => h _ hr, fun k hr => h _ hr, fun m hr => h _ hr⟩

theorem ofSource_eq_empty_iff {σ : Type} [SnapshotStore σ] (ht : ctx.tree.Acyclic)
    (hType : options.expectType = true) (hSnapshot : options.expectTypeSnapshot = true)
    (hError : options.expectError = true) (store : σ) :
    ofSource ctx options store = {} ↔
      (∀ r ∈ Record.ofSource ctx.source, r.Met ctx (SnapshotStore.read store ctx.file)) ∧
      ∀ k, (Record.ofSource ctx.source).countP (fun r => (r.typeOn? k).isSome) ≤ 1 ∧
        (Record.ofSource ctx.source).countP (Record.isErrorOn k) ≤ 1 := by
  rw [ofSource, ofAssertions, Assertions.ofSource_eq_foldl,
    ofPlan_eq_empty_iff ctx options ht hType hSnapshot hError,
    Assertions.duplicateLines_foldl_eq_nil_iff]
  constructor
  · rintro ⟨htypes, hcarets, hcount, hrest⟩
    exact ⟨(clean_foldl_iff ctx hcount).1 ⟨htypes, hcarets, hrest⟩, hcount⟩
  · rintro ⟨hmet, hcount⟩
    obtain ⟨htypes, hcarets, hrest⟩ := (clean_foldl_iff ctx hcount).2 hmet
    exact ⟨htypes, hcarets, hcount, hrest⟩

end Findings

theorem satisfied_of_not_mayOccur {ctx : FileContext} {read : Text → Option Text}
    (h : Directive.mayOccur ctx.source = false) : ctx.Satisfied read := by
  have hno {c : Comment} (hc : c.StandsIn ctx.source) {d : Directive} :
      ¬ Directive.Written c.body d := by
    intro hd
    have hoccurs := Comment.mayOccur_of_mem_all (Comment.mem_all_iff.2 hc) hd.mayOccur
    rw [h] at hoccurs
    cases hoccurs
  refine ⟨fun c hc d hd => absurd hd (hno hc), ?_, fun c _ _ hc _ hd => absurd hd (hno hc)⟩
  rintro c - - hc - ⟨_, hd | hd⟩ <;> exact absurd hd (hno hc)

/-- With all checks on, the report on a file that the type checker knows is empty exactly if the
file is satisfied. -/
theorem checkFile_reports_eq_nil_iff {σ : Type} [SnapshotStore σ] (ctx : FileContext)
    (options : Options) (store : σ) (hfile : ctx.checker.containsFile ctx.file = true)
    (htree : ctx.tree.Acyclic) (hType : options.expectType = true)
    (hSnapshot : options.expectTypeSnapshot = true) (hError : options.expectError = true) :
    (checkFile ctx options store).reports = [] ↔
      ctx.Satisfied (SnapshotStore.read store ctx.file) := by
  rw [checkFile, if_pos hfile]
  split
  · rw [FileReport.reports_ofFindings_eq_nil_iff, satisfied_iff_records htree,
      Findings.ofSource_eq_empty_iff ctx options htree hType hSnapshot hError]
  · rename_i hmark
    simp [satisfied_of_not_mayOccur (Bool.eq_false_iff.2 hmark)]

def tidyFile : FileContext where
  file := "a.ts".toList
  source :=
    ("let x = 1; // $ExpectType 1\n// ^? let x: 1\n// $ExpectTypeSnapshot y\ny();\n" ++
      "z(); // $ExpectError").toList
  tree := ⟨#[⟨"File", ⟨0, 94⟩, .other, [1, 3, 5]⟩, ⟨"Variable", ⟨0, 10⟩, .declaration 2, [2]⟩,
    ⟨"Number", ⟨8, 9⟩, .other, []⟩, ⟨"Statement", ⟨68, 72⟩, .expressionStatement 4, [4]⟩,
    ⟨"Call", ⟨68, 71⟩, .other, []⟩, ⟨"Statement", ⟨73, 77⟩, .other, []⟩]⟩
  checker := ⟨fun _ => true, fun n =>
    if n = 2 then some "1".toList else if n = 4 then some "readonly 1[]".toList else none⟩
  service := ⟨fun _ offset => if offset = 0 then some ⟨["let x: ".toList, "1".toList]⟩ else none⟩
  diagnostics := [⟨73, 74⟩]

def tidyStore : MemoryStore :=
  ({} : MemoryStore).write tidyFile.file "y".toList "ReadonlyArray<1>".toList

def untidyFile : FileContext :=
  { tidyFile with checker := ⟨fun _ => true, fun _ => none⟩, diagnostics := [] }

theorem tidyFile_satisfied :
    tidyFile.tree.Acyclic ∧ tidyFile.Satisfied (SnapshotStore.read tidyStore tidyFile.file) ∧
      (checkFile untidyFile {} tidyStore).reports.length = 3 ∧
      ¬ untidyFile.Satisfied (SnapshotStore.read tidyStore untidyFile.file) := by
  have hacyclic : tidyFile.tree.Acyclic := SyntaxTree.acyclic_of_lt (by decide)
  have hclean : (checkFile tidyFile {} tidyStore).reports = [] := by decide +kernel
  have hthree : (checkFile untidyFile {} tidyStore).reports.length = 3 := by
    have hfile : untidyFile.checker.containsFile untidyFile.file = true := rfl
    have hmark : Directive.mayOccur untidyFile.source = true := by decide +kernel
    rw [checkFile, if_pos hfile, if_pos hmark, (FileReport.ofFindings_perm _ _ _).length_eq]
    decide +kernel
  have hiff := checkFile_reports_eq_nil_iff tidyFile {} tidyStore rfl hacyclic rfl rfl rfl
  have hiff' := checkFile_reports_eq_nil_iff untidyFile {} tidyStore rfl hacyclic rfl rfl rfl
  refine ⟨hacyclic, hiff.1 hclean, hthree, ?_⟩
  intro hsatisfied
  rw [hiff'.2 hsatisfied] at hthree
  cases hthree

end TypeComments
