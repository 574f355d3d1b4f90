import TypeComments.Proofs.Accounting

/-! Options choose among the findings and do not change them. What a run says under some options is
what the run with every check on says about the assertions that they ask for: a check that is turned
off takes its own findings away, and no assertion gets another node because of it. -/

namespace TypeComments

namespace Options

def full : Options where
  expectError := true
  expectType := true
  expectTypeSnapshot := true
  disableSnapshotFix := false

def checks (options : Options) : AssertionKind → Bool
  | .manual | .caret => options.expectType
  | .snapshot => options.expectTypeSnapshot

theorem asksFor_eq_checks (options : Options) (t : TypeAssertion) :
    options.asksFor t = options.checks t.kind := by
  cases t <;> rfl

theorem asksFor_full (t : TypeAssertion) : full.asksFor t = true := by
  cases t <;> rfl

theorem asksFor_filled (options : Options) (read : Text → Option Text) (t : TypeAssertion) :
    options.asksFor (t.filled read) = options.asksFor t := by
  cases t <;> rfl

end Options

namespace Unmet

/-- The entry is about an assertion that is checked. -/
def isChecked (options : Options) (u : Unmet) : Bool :=
  match u.expectation with
  | .line _ t => options.asksFor t
  | .caret _ => options.expectType

/-- The entry with the fix that it has under options: a snapshot may have to do without. -/
def under (options : Options) (u : Unmet) : Unmet :=
  match u.expectation with
  | .line _ (.snapshot _ _) => if options.disableSnapshotFix then { u with fix := none } else u
  | .line _ (.manual _) => u
  | .caret _ => u

end Unmet

def Assertions.only (kind : AssertionKind) (a : Assertions) : Assertions where
  types := a.types.filter fun _ t => t.kind = kind
  carets := if kind = .caret then a.carets else []

namespace Plan

variable (ctx : FileContext) (options : Options) (read : Text → Option Text) (a : Assertions)

/-- Turning checks off takes assertions away from their nodes, and moves none. -/
theorem binding_make : (make ctx options read a).binding =
    (make ctx .full read a).binding.filter options.asksFor := by
  have hpending : (a.types.filterMap fun _ t => t.enable options read) =
      (a.types.filterMap fun _ t => t.enable .full read).filter fun _ => options.asksFor := by
    apply Std.ExtTreeMap.ext_getElem?
    intro line
    rw [Std.ExtTreeMap.getElem?_filter', TypeAssertion.getElem?_enable,
      TypeAssertion.getElem?_enable]
    cases a.types[line]? with
    | none => rfl
    | some t =>
      cases h : options.asksFor t <;>
        simp [Option.filter, h, Options.asksFor_full, Options.asksFor_filled]
  rw [make, hpending, Binding.ofTree_filter]
  rfl

theorem binding_make_only (kind : AssertionKind) : (make ctx .full read (a.only kind)).binding =
    (make ctx .full read a).binding.filter fun t => t.kind = kind := by
  have hpending : ((a.only kind).types.filterMap fun _ t => t.enable .full read) =
      (a.types.filterMap fun _ t => t.enable .full read).filter fun _ t => t.kind = kind := by
    apply Std.ExtTreeMap.ext_getElem?
    intro line
    rw [Std.ExtTreeMap.getElem?_filter', TypeAssertion.getElem?_enable,
      TypeAssertion.getElem?_enable, Assertions.only, Std.ExtTreeMap.getElem?_filter']
    cases a.types[line]? with
    | none => rfl
    | some t =>
      by_cases h : t.kind = kind <;>
        simp [Option.filter, h, Options.asksFor_full, Findings.kind_filled]
  rw [make, hpending, Binding.ofTree_filter]
  rfl

end Plan

namespace Findings

variable (ctx : FileContext) (options : Options)

theorem checkBound_eq_map (b : Bound) :
    checkBound ctx options b = (checkBound ctx .full b).map (Unmet.under options) := by
  by_cases hmet : MetBy ctx b.node b.assertion
  · rw [(checkBound_eq_none_iff ctx options b).2 hmet, (checkBound_eq_none_iff ctx .full b).2 hmet]
    rfl
  · rw [checkBound_of_not_metBy hmet, checkBound_of_not_metBy hmet]
    cases h : b.assertion with
    | manual expected => rfl
    | snapshot name expected =>
      cases hfix : options.disableSnapshotFix <;> simp [Unmet.under, fixFor, hfix, Options.full]

theorem filterMap_checkBound (bs : List Bound) :
    (bs.filter fun b => options.asksFor b.assertion).filterMap (checkBound ctx options) =
      ((bs.filterMap (checkBound ctx .full)).filter (Unmet.isChecked options)).map
        (Unmet.under options) := by
  rw [List.filterMap_filter, List.filter_filterMap, List.map_filterMap]
  apply List.filterMap_congr
  intro b _
  rw [checkBound_eq_map]
  cases hu : checkBound ctx .full b with
  | none => simp
  | some u =>
    have hchecked : u.isChecked options = options.asksFor b.assertion := by
      rw [Unmet.isChecked, expectation_of_checkBound hu]
    cases h : options.asksFor b.assertion <;> simp [Option.filter, hchecked, h]

theorem filterMap_checkCaret (read : Text → Option Text) (a : Assertions) :
    (Plan.make ctx options read a).carets.filterMap (fun p => (checkCaret ctx p).unmet?) =
      (((Plan.make ctx .full read a).carets.filterMap fun p =>
        (checkCaret ctx p).unmet?).filter (Unmet.isChecked options)).map (Unmet.under options) := by
  have hcaret : ∀ u ∈ (Plan.make ctx .full read a).carets.filterMap fun p =>
      (checkCaret ctx p).unmet?, u.isChecked options = options.expectType ∧
        u.under options = u := by
    intro u hu
    obtain ⟨p, -, hp⟩ := List.mem_filterMap.1 hu
    simp only [Unmet.isChecked, Unmet.under, (unmet_of_checkCaret ctx hp).2.1]
    exact ⟨trivial, trivial⟩
  have hmake : (Plan.make ctx options read a).carets =
      if options.expectType then (Plan.make ctx .full read a).carets else [] := by
    rw [carets_make, carets_make]
    cases options.expectType <;> rfl
  rw [hmake]
  cases htype : options.expectType with
  | false =>
    have hnone : ((Plan.make ctx .full read a).carets.filterMap fun p =>
        (checkCaret ctx p).unmet?).filter (Unmet.isChecked options) = [] := by
      rw [List.filter_eq_nil_iff]
      intro u hu
      simp [(hcaret u hu).1, htype]
    rw [hnone]
    rfl
  | true =>
    have hall : ((Plan.make ctx .full read a).carets.filterMap fun p =>
        (checkCaret ctx p).unmet?).filter (Unmet.isChecked options) =
          (Plan.make ctx .full read a).carets.filterMap fun p => (checkCaret ctx p).unmet? := by
      rw [List.filter_eq_self]
      intro u hu
      rw [(hcaret u hu).1, htype]
    rw [hall, List.map_congr_left fun u hu => (hcaret u hu).2, List.map_id']
    rfl

/-- The findings `f` under options are what the findings of a run with every check on say about the
assertions that the options ask for; `alone` are the findings of every kind without the others. -/
structure SelectedFrom (everything : Findings) (alone : AssertionKind → Findings) (f : Findings) :
    Prop where
  unmet : f.unmet =
    (everything.unmet.filter (Unmet.isChecked options)).map (Unmet.under options)
  missingErrorLines :
    f.missingErrorLines = if options.expectError then everything.missingErrorLines else []
  duplicateLines : f.duplicateLines = everything.duplicateLines
  mistakes : f.mistakes = everything.mistakes
  orphanLines_ascending : f.orphanLines.Pairwise (· < ·)
  mem_orphanLines : ∀ line, line ∈ f.orphanLines ↔
    ∃ kind, options.checks kind = true ∧ line ∈ (alone kind).orphanLines

theorem mem_orphanLines_iff_alone (read : Text → Option Text) (a : Assertions) (line : Nat) :
    line ∈ (ofPlan ctx options (Plan.make ctx options read a) a).orphanLines ↔
      ∃ kind, options.checks kind = true ∧ line ∈ (ofPlan ctx .full
        (Plan.make ctx .full read (a.only kind)) (a.only kind)).orphanLines := by
  have hcarets (kind : AssertionKind) : (a.only kind).carets =
      if kind = .caret then a.carets else [] := rfl
  have hfull : Options.full.expectType = true := rfl
  simp only [mem_orphanLines_ofPlan, carets_make, Plan.binding_make ctx options,
    Plan.binding_make_only, Binding.mem_pending_filter, Options.asksFor_eq_checks, hcarets, hfull,
    decide_eq_true_eq, if_true, List.mem_map, exists_exists_and_eq_and]
  constructor
  · rintro (⟨t, ht, hchecks⟩ | ⟨c, hc, horphan⟩)
    · exact ⟨t.kind, hchecks, Or.inl ⟨t, ht, rfl⟩⟩
    · cases htype : options.expectType with
      | false => simp [htype] at hc
      | true => exact ⟨.caret, htype, Or.inr ⟨c, by simpa [htype] using hc, horphan⟩⟩
  · rintro ⟨kind, hchecks, ⟨t, ht, rfl⟩ | ⟨c, hc, horphan⟩⟩
    · exact Or.inl ⟨t, ht, hchecks⟩
    · cases kind with
      | caret =>
        have htype : options.expectType = true := hchecks
        exact Or.inr ⟨c, by simpa [htype] using hc, horphan⟩
      | manual => simp at hc
      | snapshot => simp at hc

/-- Options select findings and do not interfere with each other. -/
theorem selectedFrom_ofAssertions {σ : Type} [SnapshotStore σ] (store : σ) (a : Assertions) :
    SelectedFrom options (ofAssertions ctx .full store a)
      (fun kind => ofAssertions ctx .full store (a.only kind))
      (ofAssertions ctx options store a) := by
  simp only [ofAssertions]
  generalize SnapshotStore.read store ctx.file = read
  constructor
  case unmet =>
    simp only [ofPlan, List.filter_append, List.map_append]
    rw [← filterMap_checkCaret, ← filterMap_checkBound, Plan.binding_make]
    rfl
  case missingErrorLines => rfl
  case duplicateLines => rfl
  case mistakes => rfl
  case orphanLines_ascending =>
    simp only [ofPlan]
    exact toList_ascending _
  case mem_orphanLines => exact mem_orphanLines_iff_alone ctx options read a

end Findings
end TypeComments
