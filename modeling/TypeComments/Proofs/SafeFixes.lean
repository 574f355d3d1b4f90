import TypeComments.Proofs.CaretRange
import TypeComments.Proofs.FixedCode

/-! Fixes and the source that was checked. Every edit of a report fits the text on which it is made:
its ends are boundaries of the source, and the edits made before it, which stand further down, have
changed nothing up to there. Two edits can overlap only if a caret stands on a line on which the
expected text of another goes on. -/

namespace TypeComments

def Unmet.caret? (u : Unmet) : Option CaretAssertion :=
  match u.expectation with
  | .line _ _ => none
  | .caret c => some c

variable {σ τ : Type} [SnapshotStore σ] [SnapshotStore τ]

def FileContext.unmetCarets (ctx : FileContext) (options : Options) (store : σ) :
    List CaretAssertion :=
  if ctx.checker.containsFile ctx.file then
    (Findings.ofSource ctx options store).unmet.filterMap Unmet.caret?
  else []

namespace FileReport

/-- The change set that is applied to a source when the snapshots of a report are written. -/
def changes (r : FileReport) (store : σ) : ChangeSet :=
  ChangeSet.ofList ((Writing.run store r.reports).reports.filterMap Report.edit?)

theorem changes_eq (r : FileReport) (store : σ) :
    r.changes store = ChangeSet.ofList (r.reports.filterMap Report.edit?) := by
  rw [changes, Writing.edits_run]

/-- The fixes of a report can be tried on a source: each edit fits the text that the edits before it
have left, and none fails. -/
structure FixesFit (r : FileReport) (source : Text) (store : σ) : Prop where
  fits : (r.changes store).conflict? = none → ∀ front e back t,
    (r.changes store).descending = front ++ e :: back →
      ChangeSet.applyAll front source = .ok t → e.FitsIn t
  aligned : ∀ e, (r.applyFixes source store).outcome ≠ .error (.edit (.misaligned e))

section Edits

variable {r : FileReport} {source : Text} {es : List TextEdit}
  (hperm : ((r.reports.filterMap Report.edit?).filter (!·.isNoop)).Perm es)
  (hascending : ChangeSet.Ascending es) (hfits : ∀ e ∈ es, e.FitsIn source)
include hperm hascending hfits

theorem fixesFit_of_edits (store : σ) : r.FixesFit source store := by
  constructor
  case fits =>
    rw [changes_eq]
    intro hconflict front e back t hsplit hfront
    exact ChangeSet.fitsIn_of_descending hperm hascending hfits hconflict hsplit hfront
  case aligned =>
    intro e
    rw [outcome_applyFixes]
    cases (Writing.run store r.reports).refused with
    | some refused => simp
    | none =>
      have haligned := ChangeSet.apply_ofList_ne_misaligned hperm hascending hfits e
      cases happly : (ChangeSet.ofList (r.reports.filterMap Report.edit?)).apply source with
      | ok fixed => simp [Except.mapError]
      | error error =>
        rw [happly] at haligned
        simpa [Except.mapError] using haligned

theorem exists_fixed_of_apart (hapart : es.Pairwise fun a b => a.span.stop ≤ b.span.start)
    {store store' : σ} (htakes : Takes store (r.reports.filterMap Report.pending?) store') :
    ∃ fixed, (r.applyFixes source store).outcome = .ok fixed := by
  have hconflict := (ChangeSet.conflict?_ofList_eq_none_iff hperm hascending).2 hapart
  obtain ⟨fixed, hfixed⟩ := ChangeSet.exists_apply_ofList hperm hascending hfits hconflict
  refine ⟨fixed, ?_⟩
  rw [outcome_of_takes htakes, hfixed]
  rfl

end Edits

end FileReport

variable (ctx : FileContext) (options : Options) (store : σ)

theorem unmetCarets_eq :
    ctx.unmetCarets options store = (ctx.rewrites options store).map Prod.fst := by
  rw [FileContext.unmetCarets, FileContext.rewrites]
  split
  · rw [Findings.rewrites, List.map_filterMap]
    refine List.filterMap_congr fun u _ => ?_
    rw [Unmet.caret?, Unmet.rewrite?]
    cases u.expectation <;> rfl
  · rfl

theorem hasCaret_of_mem_rewrites {p : CaretAssertion × Text} (h : p ∈ ctx.rewrites options store) :
    HasCaret ctx.source p.1 :=
  (Findings.mem_rewrites ctx options store ((rewrites_sublist ctx options store).subset h)).2.1

theorem rewrites_apart
    (h : ∀ c ∈ ctx.unmetCarets options store, ∀ d ∈ ctx.unmetCarets options store,
      ¬ c.GoesOnAt d) :
    ((ctx.rewrites options store).map CaretAssertion.rewriteEdit).Pairwise
      fun a b => a.span.stop ≤ b.span.start := by
  rw [unmetCarets_eq, List.forall_mem_map] at h
  have hlines := (Findings.rewrites_pairwise ctx options store).sublist
    (rewrites_sublist ctx options store)
  refine List.pairwise_map.2 (hlines.imp_of_mem ?_)
  intro p q hp hq hlt
  refine Nat.le_of_lt (stop_lt_start_of_line_lt (hasCaret_of_mem_rewrites ctx options store hp)
    (hasCaret_of_mem_rewrites ctx options store hq) (Nat.not_le.1 fun hle => ?_))
  exact h p hp q.1 (List.mem_map_of_mem hq) ⟨hlt, hle⟩

/-- The fixes of a check fit the source that was checked. They can be applied if the snapshots are
taken, unless the expected text of an unmet caret goes on at another one. -/
theorem applyFixes_checkFile_safe (target : τ) :
    (checkFile ctx options store).FixesFit ctx.source target ∧
    ∀ target', Takes target ((checkFile ctx options store).reports.filterMap Report.pending?)
        target' →
      (∀ c ∈ ctx.unmetCarets options store, ∀ d ∈ ctx.unmetCarets options store,
        ¬ c.GoesOnAt d) →
      ∃ fixed, ((checkFile ctx options store).applyFixes ctx.source target).outcome = .ok fixed := by
  have hperm := edits_checkFile ctx options store
  have hascending := ascending_rewrites ctx options store
  have hfits : ∀ e ∈ (ctx.rewrites options store).map CaretAssertion.rewriteEdit,
      e.FitsIn ctx.source := by
    rw [List.forall_mem_map]
    exact fun p hp => (hasCaret_of_mem_rewrites ctx options store hp).fitsIn_replacement p.2
  refine ⟨FileReport.fixesFit_of_edits hperm hascending hfits target, ?_⟩
  intro target' htakes hclear
  exact FileReport.exists_fixed_of_apart hperm hascending hfits
    (rewrites_apart ctx options store hclear) htakes

def wideFile : FileContext where
  file := "a.ts".toList
  source :=
    "let é = f();\n//  ^? T\n//     U\n// $ExpectTypeSnapshot s\ng(é);\n//^?".toList
  tree := ⟨#[⟨"File", ⟨0, 68⟩, .other, [1, 2]⟩, ⟨"Variable", ⟨0, 13⟩, .other, []⟩,
    ⟨"Call", ⟨57, 63⟩, .other, []⟩]⟩
  checker := ⟨fun _ => true, fun _ => some "N".toList⟩
  service := ⟨fun _ _ => some ⟨["A\nB".toList]⟩⟩
  diagnostics := []

theorem wideFile_fixes :
    (wideFile.unmetCarets {} ({} : MemoryStore)).map (fun c => (c.line, c.expected)) =
      [(1, "T\nU".toList), (5, [])] ∧
    (Findings.edits wideFile {} ({} : MemoryStore)).map TextEdit.span = [⟨21, 31⟩, ⟨68, 68⟩] ∧
    (checkFile wideFile {} ({} : MemoryStore)).FixesFit wideFile.source ({} : MemoryStore) ∧
    ∃ fixed, ((checkFile wideFile {} ({} : MemoryStore)).applyFixes wideFile.source
      ({} : MemoryStore)).outcome = .ok fixed := by
  obtain ⟨hfit, hfixed⟩ :=
    applyFixes_checkFile_safe wideFile {} ({} : MemoryStore) ({} : MemoryStore)
  exact ⟨by decide +kernel, by decide +kernel, hfit,
    hfixed _ (MemoryStore.takes_writeAll _ _) (by decide +kernel)⟩

end TypeComments
