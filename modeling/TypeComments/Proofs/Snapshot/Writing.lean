import TypeComments.Report.Fixing

/-! What writing the snapshots of reports does. The updates that are pending are written in the
order of the reports. Either the store takes them all, or there is a first one that it refuses; in
both cases the reports before that point are marked as applied, and the store is the one that the
writes before that point lead to. -/

namespace TypeComments

def SnapshotUpdate.entry (u : SnapshotUpdate) : Text × Text × Text := (u.file, u.name, u.text)

def SnapshotUpdate.markApplied (u : SnapshotUpdate) : SnapshotUpdate := { u with applied := true }

theorem SnapshotUpdate.markApplied_of_applied {u : SnapshotUpdate} (h : u.applied = true) :
    u.markApplied = u := by
  cases u
  simp_all [markApplied]

namespace Fix

def markApplied : Fix → Fix
  | replaceText edit => replaceText edit
  | updateSnapshot u => updateSnapshot u.markApplied

def update? : Fix → Option SnapshotUpdate
  | replaceText _ => none
  | updateSnapshot u => some u

end Fix

namespace Report

def update? (r : Report) : Option SnapshotUpdate := r.fix.bind Fix.update?

/-- The snapshot update that is still to be written. -/
def pending? (r : Report) : Option SnapshotUpdate := r.update?.filter (!·.applied)

def markApplied (r : Report) : Report := { r with fix := r.fix.map Fix.markApplied }

@[simp] theorem update?_markApplied (r : Report) :
    r.markApplied.update? = r.update?.map SnapshotUpdate.markApplied := by
  obtain ⟨_, _ | _ | _⟩ := r <;> rfl

@[simp] theorem edit?_markApplied (r : Report) : r.markApplied.edit? = r.edit? := by
  obtain ⟨_, _ | _ | _⟩ := r <;> rfl

theorem markApplied_of_pending?_eq_none {r : Report} (h : r.pending? = none) :
    r.markApplied = r := by
  obtain ⟨diagnostic, _ | _ | u⟩ := r
  · rfl
  · rfl
  · have happlied : u.applied = true := by simpa [pending?, update?, Fix.update?] using h
    simp [markApplied, Fix.markApplied, SnapshotUpdate.markApplied_of_applied happlied]

end Report

variable {σ : Type} [SnapshotStore σ]

namespace Report

theorem update?_eq_some_iff {r : Report} {u : SnapshotUpdate} :
    r.update? = some u ↔ r.fix = some (.updateSnapshot u) := by
  obtain ⟨_, _ | _ | _⟩ := r <;> simp [update?, Fix.update?]

theorem pending?_eq_some_iff {r : Report} {u : SnapshotUpdate} :
    r.pending? = some u ↔ r.update? = some u ∧ u.applied = false := by
  simp [pending?, Option.filter_eq_some_iff]

theorem writeSnapshot_of_none {r : Report} (h : r.pending? = none) (s : σ) :
    r.writeSnapshot s = .ok (r.markApplied, s) := by
  rw [markApplied_of_pending?_eq_none h]
  obtain ⟨diagnostic, _ | _ | u⟩ := r
  · rfl
  · rfl
  · have happlied : u.applied = true := by simpa [pending?, update?, Fix.update?] using h
    simp only [writeSnapshot, SnapshotUpdate.apply_of_applied happlied]
    rfl

theorem writeSnapshot_of_some {r : Report} {u : SnapshotUpdate} (h : r.pending? = some u) (s : σ) :
    r.writeSnapshot s =
      (SnapshotStore.write s u.file u.name u.text).map fun s' => (r.markApplied, s') := by
  obtain ⟨hupdate, happlied⟩ := pending?_eq_some_iff.1 h
  have hfix := update?_eq_some_iff.1 hupdate
  simp only [writeSnapshot, hfix, SnapshotUpdate.apply, happlied, Bool.false_eq_true, if_false,
    markApplied]
  cases SnapshotStore.write s u.file u.name u.text <;> rfl

end Report

/-- The store takes updates one after the other and becomes the second store. -/
inductive Takes : σ → List SnapshotUpdate → σ → Prop
  | nil (s : σ) : Takes s [] s
  | cons {s s' s'' : σ} {u : SnapshotUpdate} {us : List SnapshotUpdate} :
    SnapshotStore.write s u.file u.name u.text = .ok s' → Takes s' us s'' → Takes s (u :: us) s''

namespace Writing

theorem run_of_takes {s s' : σ} {rs : List Report} (h : Takes s (rs.filterMap Report.pending?) s') :
    run s rs = ⟨rs.map Report.markApplied, s', none⟩ := by
  induction rs generalizing s with
  | nil => cases h; rfl
  | cons r rs ih =>
    cases hr : r.pending? with
    | none =>
      rw [List.filterMap_cons_none hr] at h
      simp [run, Report.writeSnapshot_of_none hr, ih h]
    | some u =>
      rw [List.filterMap_cons_some hr] at h
      cases h with
      | cons hwrite htakes =>
        simp [run, Report.writeSnapshot_of_some hr, hwrite, Except.map, ih htakes]

theorem run_of_refused {s s' : σ} {front : List Report} {r : Report} {u : SnapshotUpdate}
    {e : SnapshotError} (h : Takes s (front.filterMap Report.pending?) s')
    (hr : r.pending? = some u) (he : SnapshotStore.write s' u.file u.name u.text = .error e)
    (back : List Report) :
    run s (front ++ r :: back) = ⟨front.map Report.markApplied ++ r :: back, s', some e⟩ := by
  induction front generalizing s with
  | nil =>
    cases h
    simp [run, Report.writeSnapshot_of_some hr, he, Except.map]
  | cons r₀ front ih =>
    cases hr₀ : r₀.pending? with
    | none =>
      rw [List.filterMap_cons_none hr₀] at h
      simp [run, Report.writeSnapshot_of_none hr₀, ih h]
    | some u₀ =>
      rw [List.filterMap_cons_some hr₀] at h
      cases h with
      | cons hwrite htakes =>
        simp [run, Report.writeSnapshot_of_some hr₀, hwrite, Except.map, ih htakes]

/-- The store takes every pending update, or there is a first that it refuses. -/
theorem takes_or_refused (s : σ) (rs : List Report) :
    (∃ s', Takes s (rs.filterMap Report.pending?) s') ∨
      ∃ front r back u s' e, rs = front ++ r :: back ∧ r.pending? = some u ∧
        Takes s (front.filterMap Report.pending?) s' ∧
        SnapshotStore.write s' u.file u.name u.text = .error e := by
  induction rs generalizing s with
  | nil => exact Or.inl ⟨s, .nil s⟩
  | cons r rs ih =>
    cases hr : r.pending? with
    | none =>
      rcases ih s with ⟨s', htakes⟩ | ⟨front, r', back, u, s', e, rfl, hu, htakes, he⟩
      · exact Or.inl ⟨s', by rwa [List.filterMap_cons_none hr]⟩
      · exact Or.inr ⟨r :: front, r', back, u, s', e, rfl, hu,
          by rwa [List.filterMap_cons_none hr], he⟩
    | some u =>
      cases hwrite : SnapshotStore.write s u.file u.name u.text with
      | error e => exact Or.inr ⟨[], r, rs, u, s, e, rfl, hr, .nil s, hwrite⟩
      | ok s₁ =>
        rcases ih s₁ with ⟨s', htakes⟩ | ⟨front, r', back, u', s', e, rfl, hu', htakes, he⟩
        · exact Or.inl ⟨s', by rw [List.filterMap_cons_some hr]; exact .cons hwrite htakes⟩
        · exact Or.inr ⟨r :: front, r', back, u', s', e, rfl, hu',
            by rw [List.filterMap_cons_some hr]; exact .cons hwrite htakes, he⟩

end Writing

namespace MemoryStore

theorem takes_writeAll (s : MemoryStore) (us : List SnapshotUpdate) :
    Takes s us (s.writeAll (us.map SnapshotUpdate.entry)) := by
  induction us generalizing s with
  | nil => exact .nil s
  | cons u us ih => exact .cons rfl (ih _)

end MemoryStore

namespace FileReport

def updates (r : FileReport) : List SnapshotUpdate := r.reports.filterMap Report.update?

theorem pending_eq_filter (rs : List Report) :
    rs.filterMap Report.pending? = (rs.filterMap Report.update?).filter (!·.applied) := by
  rw [List.filter_filterMap]
  rfl

/-- Applying the fixes of a fresh report writes all its updates to a store in memory, whatever
becomes of the edits. -/
theorem store_applyFixes {r : FileReport} (h : ∀ u ∈ r.updates, u.applied = false) (source : Text)
    (s : MemoryStore) :
    (r.applyFixes source s).store = s.writeAll (r.updates.map SnapshotUpdate.entry) := by
  have hpending : r.reports.filterMap Report.pending? = r.updates := by
    rw [pending_eq_filter, ← updates, List.filter_eq_self]
    intro u hu
    simp [h u hu]
  rw [applyFixes, Writing.run_of_takes (MemoryStore.takes_writeAll s _), hpending]

end FileReport
end TypeComments
