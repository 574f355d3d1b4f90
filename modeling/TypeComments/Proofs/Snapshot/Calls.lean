import Mathlib.Data.List.Basic
import TypeComments.Proofs.Snapshot.Writing
import TypeComments.Snapshot.Guard

/-! Repeated calls to apply the fixes of a report. Every call may come with another source and
another store, and a store may refuse any write. If nothing of the report had been written at first,
then the writes of all calls together are those of its first updates, in order and each made once,
and the marks on the updates tell just which these are. -/

namespace TypeComments

variable {σ : Type} [SnapshotStore σ]

/-- A store that also lists the writes it makes. -/
structure Journal (σ : Type) where
  store : σ
  writes : List (Text × Text × Text) := []

namespace Journal

instance : SnapshotStore (Journal σ) where
  read j := SnapshotStore.read j.store
  write j file name text := (SnapshotStore.write j.store file name text).map fun s =>
    ⟨s, j.writes ++ [(file, name, text)]⟩

theorem write_of_error {s : σ} {file name text : Text} {e : SnapshotError}
    (h : SnapshotStore.write s file name text = .error e) (log : List (Text × Text × Text)) :
    SnapshotStore.write (⟨s, log⟩ : Journal σ) file name text = .error e := by
  simp [SnapshotStore.write, h, Except.map]

theorem takes {s s' : σ} {us : List SnapshotUpdate} (h : Takes s us s')
    (log : List (Text × Text × Text)) :
    Takes (⟨s, log⟩ : Journal σ) us ⟨s', log ++ us.map SnapshotUpdate.entry⟩ := by
  induction h generalizing log with
  | nil s => simpa using Takes.nil (⟨s, log⟩ : Journal σ)
  | @cons s s' s'' u us hwrite _ ih =>
    have hfirst : SnapshotStore.write (⟨s, log⟩ : Journal σ) u.file u.name u.text =
        .ok ⟨s', log ++ [u.entry]⟩ := by
      simp [SnapshotStore.write, hwrite, Except.map, SnapshotUpdate.entry]
    have hrest := ih (log ++ [u.entry])
    rw [List.append_assoc] at hrest
    exact Takes.cons hfirst hrest

end Journal

/-- A request to apply the fixes of a report to a source, with a store to write to. -/
structure Call (σ : Type) where
  source : Text
  store : σ

namespace FileReport

def edited (r : FileReport) (source : Text) : Except FixError Text :=
  ((ChangeSet.ofList (r.reports.filterMap Report.edit?)).apply source).mapError .edit

def call (r : FileReport) (c : Call σ) : Fixing σ := r.applyFixes c.source c.store

/-- The writes that a call makes, as its store could list them. -/
def writes (r : FileReport) (c : Call σ) : List (Text × Text × Text) :=
  (r.applyFixes c.source (⟨c.store, []⟩ : Journal σ)).store.writes

def afterCalls (r : FileReport) (cs : List (Call σ)) : FileReport :=
  cs.foldl (fun r c => (r.call c).report) r

def allWrites (r : FileReport) : List (Call σ) → List (Text × Text × Text)
  | [] => []
  | c :: cs => r.writes c ++ (r.call c).report.allWrites cs

/-- The first write of a call that the store refuses is the one of the `k`-th report. -/
def RefusedAt (r : FileReport) (c : Call σ) (k : Nat) (e : SnapshotError) : Prop :=
  ∃ report u s, r.reports[k]? = some report ∧ report.pending? = some u ∧
    Takes c.store ((r.reports.take k).filterMap Report.pending?) s ∧
    SnapshotStore.write s u.file u.name u.text = .error e

/-- A call writes what is pending before the `k`-th report, fails with `e`, and leaves the updates
from the `k`-th report on as they were, which is pending. -/
structure StopsAt (r : FileReport) (c : Call σ) (k : Nat) (e : SnapshotError) : Prop where
  outcome : (r.call c).outcome = .error (.snapshot e)
  writes : r.writes c = ((r.reports.take k).filterMap Report.pending?).map SnapshotUpdate.entry
  store : Takes c.store ((r.reports.take k).filterMap Report.pending?) (r.call c).store
  reports : (r.call c).report.reports =
    (r.reports.take k).map Report.markApplied ++ r.reports.drop k
  rest : ∀ u ∈ (r.reports.drop k).filterMap Report.update?, u.applied = false

structure WritesAll (r : FileReport) (c : Call σ) : Prop where
  writes : r.writes c = (r.reports.filterMap Report.pending?).map SnapshotUpdate.entry
  store : Takes c.store (r.reports.filterMap Report.pending?) (r.call c).store
  applied : ∀ u ∈ (r.call c).report.updates, u.applied = true

/-- What can be said after calls, and about one more call. -/
structure WritesOnce (r : FileReport) (cs : List (Call σ)) : Prop where
  written : r.allWrites cs <+: r.updates.map SnapshotUpdate.entry
  applied : (r.afterCalls cs).updates = r.updates.mapIdx fun i u =>
    { u with applied := decide (i < (r.allWrites cs).length) }
  kept : ∀ (later : List (Call σ)) (i : Nat) (u : SnapshotUpdate),
    (r.afterCalls cs).updates[i]? = some u → u.applied = true →
      (r.afterCalls (cs ++ later)).updates[i]? = some u
  refused : ∀ (c : Call σ) (k : Nat) (e : SnapshotError),
    (r.afterCalls cs).RefusedAt c k e → (r.afterCalls cs).StopsAt c k e
  conflict : ∀ (c : Call σ) (x : EditConflict),
    ((r.afterCalls cs).call c).outcome = .error (.edit (.conflict x)) →
      (r.afterCalls cs).WritesAll c
  unrefused : ∀ c : Call σ, (¬ ∃ k e, (r.afterCalls cs).RefusedAt c k e) →
    (r.afterCalls cs).WritesAll c ∧ ∀ later : List (Call σ),
      ((r.afterCalls cs).call c).report.allWrites later = [] ∧
      ∀ c' : Call σ, c'.source = c.source →
        ((((r.afterCalls cs).call c).report.afterCalls later).call c').outcome =
          ((r.afterCalls cs).call c).outcome

section Call

variable {r : FileReport} {c : Call σ}

theorem edits_markApplied (rs : List Report) :
    (rs.map Report.markApplied).filterMap Report.edit? = rs.filterMap Report.edit? := by
  rw [List.filterMap_map]
  apply List.filterMap_congr
  intro r _
  exact Report.edit?_markApplied r

theorem updates_markApplied (rs : List Report) :
    (rs.map Report.markApplied).filterMap Report.update? =
      (rs.filterMap Report.update?).map SnapshotUpdate.markApplied := by
  rw [List.filterMap_map, List.map_filterMap]
  apply List.filterMap_congr
  intro r _
  exact Report.update?_markApplied r

theorem call_of_takes {s : σ} (h : Takes c.store (r.reports.filterMap Report.pending?) s) :
    r.call c = ⟨{ r with reports := r.reports.map Report.markApplied }, s, r.edited c.source⟩ := by
  simp only [call, applyFixes, Writing.run_of_takes h, edits_markApplied, edited]

theorem writes_of_takes {s : σ} (h : Takes c.store (r.reports.filterMap Report.pending?) s) :
    r.writes c = (r.reports.filterMap Report.pending?).map SnapshotUpdate.entry := by
  simp only [writes, applyFixes, Writing.run_of_takes (Journal.takes h []), List.nil_append]

theorem reports_eq_of_getElem? {k : Nat} {report : Report} (h : r.reports[k]? = some report) :
    r.reports.drop k = report :: r.reports.drop (k + 1) ∧
      r.reports = r.reports.take k ++ report :: r.reports.drop (k + 1) := by
  obtain ⟨hk, rfl⟩ := List.getElem?_eq_some_iff.1 h
  have hdrop := List.drop_eq_getElem_cons hk
  exact ⟨hdrop, by rw [← hdrop, List.take_append_drop]⟩

theorem call_of_refusedAt {k : Nat} {e : SnapshotError} (h : r.RefusedAt c k e) :
    ∃ s, Takes c.store ((r.reports.take k).filterMap Report.pending?) s ∧
      r.call c = ⟨{ r with
        reports := (r.reports.take k).map Report.markApplied ++ r.reports.drop k }, s,
        .error (.snapshot e)⟩ ∧
      r.writes c = ((r.reports.take k).filterMap Report.pending?).map SnapshotUpdate.entry := by
  obtain ⟨report, u, s, hk, hu, htakes, he⟩ := h
  obtain ⟨hdrop, hreports⟩ := reports_eq_of_getElem? hk
  have hrun := Writing.run_of_refused htakes hu he (r.reports.drop (k + 1))
  have hjournal := Writing.run_of_refused (Journal.takes htakes []) hu (Journal.write_of_error he _)
    (r.reports.drop (k + 1))
  rw [← hreports] at hrun hjournal
  refine ⟨s, htakes, ?_, ?_⟩
  · simp only [call, applyFixes, hrun, hdrop]
  · simp only [writes, applyFixes, hjournal, List.nil_append]

theorem takes_or_refusedAt (r : FileReport) (c : Call σ) :
    (∃ s, Takes c.store (r.reports.filterMap Report.pending?) s) ∨ ∃ k e, r.RefusedAt c k e := by
  rcases Writing.takes_or_refused c.store r.reports with
    htakes | ⟨front, report, back, u, s, e, hreports, hu, htakes, he⟩
  · exact Or.inl htakes
  · refine Or.inr ⟨front.length, e, report, u, s, ?_, hu, ?_, he⟩
    · simp [hreports]
    · simpa [hreports] using htakes

theorem writesAll_of_takes {s : σ} (h : Takes c.store (r.reports.filterMap Report.pending?) s) :
    r.WritesAll c := by
  refine ⟨writes_of_takes h, by rwa [call_of_takes h], ?_⟩
  intro u hu
  rw [call_of_takes h, updates, updates_markApplied] at hu
  obtain ⟨v, -, rfl⟩ := List.mem_map.1 hu
  rfl

end Call

/-- The updates of a report are applied up to some point, and pending from there on. -/
structure AppliedUpTo (r : FileReport) (done rest : List SnapshotUpdate) : Prop where
  updates : r.updates = done ++ rest
  done : ∀ u ∈ done, u.applied = true
  rest : ∀ u ∈ rest, u.applied = false

namespace AppliedUpTo

variable {r : FileReport} {done rest : List SnapshotUpdate}

theorem exists_of_pending (h : r.AppliedUpTo done rest) {front back : List SnapshotUpdate}
    {u : SnapshotUpdate} (hsplit : r.updates = front ++ u :: back) (hu : u.applied = false) :
    ∃ mid, front = done ++ mid ∧ rest = mid ++ u :: back := by
  rw [h.updates] at hsplit
  rcases List.append_eq_append_iff.1 hsplit with ⟨mid, hfront, hrest⟩ | ⟨mid, hdone, htail⟩
  · exact ⟨mid, hfront, hrest⟩
  · cases mid with
    | nil => exact ⟨[], by simpa using hdone.symm, by simpa using htail.symm⟩
    | cons v mid =>
      obtain ⟨rfl, -⟩ := List.cons.inj htail
      have happlied := h.done u (by simp [hdone])
      rw [hu] at happlied
      cases happlied

theorem exists_of_refusedAt (h : r.AppliedUpTo done rest) {c : Call σ} {k : Nat}
    {e : SnapshotError} (hk : r.RefusedAt c k e) :
    ∃ front back, rest = front ++ back ∧
      (r.reports.take k).filterMap Report.update? = done ++ front ∧
      (r.reports.drop k).filterMap Report.update? = back := by
  obtain ⟨report, u, s, hreport, hpending, -⟩ := hk
  obtain ⟨hdrop, hreports⟩ := reports_eq_of_getElem? hreport
  obtain ⟨hupdate, hu⟩ := Report.pending?_eq_some_iff.1 hpending
  have hback : (r.reports.drop k).filterMap Report.update? =
      u :: (r.reports.drop (k + 1)).filterMap Report.update? := by
    rw [hdrop, List.filterMap_cons_some hupdate]
  have hsplit : r.updates = (r.reports.take k).filterMap Report.update? ++
      u :: (r.reports.drop (k + 1)).filterMap Report.update? := by
    rw [← hback, ← List.filterMap_append, List.take_append_drop]
    rfl
  obtain ⟨mid, hfront, hrest⟩ := h.exists_of_pending hsplit hu
  exact ⟨mid, _, hrest, hfront, hback⟩

theorem filter_pending (hdone : ∀ u ∈ done, u.applied = true)
    (hrest : ∀ u ∈ rest, u.applied = false) :
    (done ++ rest).filter (!·.applied) = rest := by
  rw [List.filter_append, List.filter_eq_nil_iff.2, List.filter_eq_self.2, List.nil_append]
  · intro u hu
    simp [hrest u hu]
  · intro u hu
    simp [hdone u hu]

theorem map_markApplied (hdone : ∀ u ∈ done, u.applied = true) :
    done.map SnapshotUpdate.markApplied = done := by
  rw [List.map_congr_left fun u hu => SnapshotUpdate.markApplied_of_applied (hdone u hu),
    List.map_id']

theorem mark (h : r.AppliedUpTo done rest) {front back : List SnapshotUpdate}
    (hrest : rest = front ++ back) {r' : FileReport}
    (hupdates : r'.updates = (done ++ front).map SnapshotUpdate.markApplied ++ back) :
    r'.AppliedUpTo (done ++ front.map SnapshotUpdate.markApplied) back := by
  refine ⟨?_, ?_, fun u hu => h.rest u (by simp [hrest, hu])⟩
  · rw [hupdates, List.map_append, map_markApplied h.done]
  · intro u hu
    rcases List.mem_append.1 hu with hu | hu
    · exact h.done u hu
    · obtain ⟨v, -, rfl⟩ := List.mem_map.1 hu
      rfl

/-- A call writes some of the pending updates, from the first on. -/
theorem exists_of_call (h : r.AppliedUpTo done rest) (c : Call σ) :
    ∃ front back, rest = front ++ back ∧ r.writes c = front.map SnapshotUpdate.entry ∧
      (r.call c).report.AppliedUpTo (done ++ front.map SnapshotUpdate.markApplied) back := by
  rcases takes_or_refusedAt r c with ⟨s, htakes⟩ | ⟨k, e, hk⟩
  · refine ⟨rest, [], by simp, ?_, h.mark (by simp) ?_⟩
    · rw [writes_of_takes htakes, pending_eq_filter, ← FileReport.updates, h.updates,
        filter_pending h.done h.rest]
    · rw [call_of_takes htakes, FileReport.updates, updates_markApplied, ← FileReport.updates,
        h.updates, List.append_nil]
  · obtain ⟨front, back, hrest, htake, hdrop⟩ := h.exists_of_refusedAt hk
    obtain ⟨s, -, hcall, hwrites⟩ := call_of_refusedAt hk
    refine ⟨front, back, hrest, ?_, h.mark hrest ?_⟩
    · rw [hwrites, pending_eq_filter, htake, filter_pending h.done]
      intro u hu
      exact h.rest u (by simp [hrest, hu])
    · rw [hcall, FileReport.updates, List.filterMap_append, updates_markApplied, htake, hdrop]

theorem exists_of_calls (h : r.AppliedUpTo done rest) (cs : List (Call σ)) :
    ∃ front back, rest = front ++ back ∧ r.allWrites cs = front.map SnapshotUpdate.entry ∧
      (r.afterCalls cs).AppliedUpTo (done ++ front.map SnapshotUpdate.markApplied) back := by
  induction cs generalizing r done rest with
  | nil => exact ⟨[], rest, rfl, rfl, by simpa [afterCalls] using h⟩
  | cons c cs ih =>
    obtain ⟨front, back, rfl, hwrites, hcall⟩ := h.exists_of_call c
    obtain ⟨front', back', rfl, hwrites', hcalls⟩ := ih hcall
    refine ⟨front ++ front', back', by simp, ?_, ?_⟩
    · rw [allWrites, hwrites, hwrites', List.map_append]
    · simpa [afterCalls] using hcalls

theorem getElem?_of_applied (h : r.AppliedUpTo done rest) {i : Nat} {u : SnapshotUpdate}
    (hi : r.updates[i]? = some u) (hu : u.applied = true) : done[i]? = some u := by
  rw [h.updates, List.getElem?_append] at hi
  split at hi
  · exact hi
  · have hpending := h.rest u (List.mem_of_getElem? hi)
    rw [hu] at hpending
    cases hpending

theorem updates_eq_mapIdx {front back : List SnapshotUpdate}
    (h : r.AppliedUpTo (front.map SnapshotUpdate.markApplied) back) :
    r.updates = (front ++ back).mapIdx fun i u =>
      { u with applied := decide (i < front.length) } := by
  rw [h.updates]
  apply List.ext_getElem?
  intro i
  rw [List.getElem?_mapIdx, List.getElem?_append, List.getElem?_append, List.length_map,
    List.getElem?_map]
  split
  · rename_i hi
    rw [decide_eq_true hi]
    rfl
  · rename_i hi
    rw [decide_eq_false hi]
    cases hu : back[i - front.length]? with
    | none => rfl
    | some u =>
      have hpending := h.rest u (List.mem_of_getElem? hu)
      rw [Option.map_some, ← hpending]

end AppliedUpTo

theorem call_of_applied {r : FileReport} (h : ∀ u ∈ r.updates, u.applied = true) (c : Call σ) :
    r.writes c = [] ∧ (r.call c).report = r ∧ (r.call c).outcome = r.edited c.source := by
  have hnone : ∀ report ∈ r.reports, report.pending? = none := by
    intro report hreport
    by_contra hsome
    obtain ⟨u, hu⟩ := Option.ne_none_iff_exists'.1 hsome
    obtain ⟨hupdate, hpending⟩ := Report.pending?_eq_some_iff.1 hu
    have happlied := h u (List.mem_filterMap.2 ⟨report, hreport, hupdate⟩)
    rw [hpending] at happlied
    cases happlied
  have hmark : r.reports.map Report.markApplied = r.reports := by
    rw [List.map_congr_left fun report hreport =>
      Report.markApplied_of_pending?_eq_none (hnone report hreport), List.map_id']
  have hpending : r.reports.filterMap Report.pending? = [] := List.filterMap_eq_nil_iff.2 hnone
  have htakes : Takes c.store (r.reports.filterMap Report.pending?) c.store := by
    rw [hpending]
    exact .nil _
  rw [writes_of_takes htakes, call_of_takes htakes, hmark, hpending]
  exact ⟨rfl, rfl, rfl⟩

theorem calls_of_applied {r : FileReport} (h : ∀ u ∈ r.updates, u.applied = true)
    (cs : List (Call σ)) : r.allWrites cs = [] ∧ r.afterCalls cs = r := by
  induction cs with
  | nil => exact ⟨rfl, rfl⟩
  | cons c cs ih =>
    obtain ⟨hwrites, hreport, -⟩ := call_of_applied h c
    have hafter : r.afterCalls (c :: cs) = (r.call c).report.afterCalls cs := rfl
    rw [allWrites, hwrites, hafter, hreport]
    exact ih

/-- However often the fixes of a fresh report are applied, and whatever the stores refuse, each of
its snapshot updates is written at most once, and marked if it was. -/
theorem writesOnce_of_pending (r : FileReport) (hpending : ∀ u ∈ r.updates, u.applied = false)
    (cs : List (Call σ)) : r.WritesOnce cs := by
  have hstart : r.AppliedUpTo [] r.updates := ⟨rfl, by simp, hpending⟩
  obtain ⟨front, back, hupdates, hwrites, hafter⟩ := hstart.exists_of_calls cs
  rw [List.nil_append] at hafter
  constructor
  case written => exact ⟨back.map SnapshotUpdate.entry, by rw [hwrites, hupdates, List.map_append]⟩
  case applied => rw [hafter.updates_eq_mapIdx, hwrites, hupdates, List.length_map]
  case kept =>
    intro later i u hi hu
    obtain ⟨_, _, -, -, hlater⟩ := hafter.exists_of_calls later
    have hdone := hafter.getElem?_of_applied hi hu
    have hlt := (List.getElem?_eq_some_iff.1 hdone).1
    rw [afterCalls, List.foldl_append, ← afterCalls, ← afterCalls, hlater.updates,
      List.append_assoc, List.getElem?_append_left hlt, hdone]
  case refused =>
    intro c k e hk
    obtain ⟨s, htakes, hcall, hwrote⟩ := call_of_refusedAt hk
    obtain ⟨_, _, hrest, -, hdrop⟩ := hafter.exists_of_refusedAt hk
    refine ⟨by rw [hcall], hwrote, by rwa [hcall], by rw [hcall], ?_⟩
    intro u hu
    rw [hdrop] at hu
    exact hafter.rest u (by simp [hrest, hu])
  case conflict =>
    intro c x hx
    rcases takes_or_refusedAt (r.afterCalls cs) c with ⟨s, htakes⟩ | ⟨k, e, hk⟩
    · exact writesAll_of_takes htakes
    · obtain ⟨s, -, hcall, -⟩ := call_of_refusedAt hk
      rw [hcall] at hx
      cases hx
  case unrefused =>
    intro c hno
    obtain ⟨s, htakes⟩ := (takes_or_refusedAt (r.afterCalls cs) c).resolve_right hno
    have hall := writesAll_of_takes htakes
    refine ⟨hall, ?_⟩
    intro later
    obtain ⟨hnone, hsame⟩ := calls_of_applied hall.applied later
    refine ⟨hnone, ?_⟩
    intro c' hsource
    obtain ⟨-, -, houtcome⟩ := call_of_applied hall.applied c'
    rw [hsame, houtcome, hsource, call_of_takes htakes, edited, edits_markApplied]
    rfl

def ofNames (file : Text) (names : List Text) : FileReport where
  file := file
  reports := names.map fun name =>
    { diagnostic := .snapshotNotFound (.startOfLine 0) name name
      fix := some (.updateSnapshot { file := file, name := name, text := name }) }

def threeCalls : List (Call GuardedStore) :=
  [⟨"x".toList, { refusal := .names ["b".toList] }⟩, ⟨"y".toList, {}⟩,
    ⟨"y".toList, { refusal := .everything }⟩]

theorem refused_then_written_once :
    (∀ u ∈ (ofNames "f".toList ["a".toList, "b".toList, "b".toList]).updates, u.applied = false) ∧
    (ofNames "f".toList ["a".toList, "b".toList, "b".toList]).StopsAt
      (⟨"x".toList, { refusal := .names ["b".toList] }⟩ : Call GuardedStore) 1
      (.rejected "f".toList "b".toList "store is read-only".toList) ∧
    (ofNames "f".toList ["a".toList, "b".toList, "b".toList]).allWrites threeCalls =
      [("f".toList, "a".toList, "a".toList), ("f".toList, "b".toList, "b".toList),
        ("f".toList, "b".toList, "b".toList)] ∧
    (ofNames "f".toList ["a".toList, "b".toList, "b".toList]).WritesOnce threeCalls := by
  have hpending : ∀ u ∈ (ofNames "f".toList ["a".toList, "b".toList, "b".toList]).updates,
      u.applied = false := by decide
  have hfirst := writesOnce_of_pending _ hpending ([] : List (Call GuardedStore))
  refine ⟨hpending, hfirst.refused _ 1 _ ?_, by decide +kernel,
    writesOnce_of_pending _ hpending threeCalls⟩
  exact ⟨_, _, _, rfl, rfl, .cons rfl (.nil _), rfl⟩

end FileReport
end TypeComments
