import TypeComments.Check
import TypeComments.Proofs.Code
import TypeComments.Proofs.Snapshot.Writing

/-! Applying the fixes of a report leaves the code of the source alone, up to one thing: the code
before a caret stands on every line of the caret's expected text, and so as often as this text has
lines. -/

namespace TypeComments

theorem Report.edit?_of_writeSnapshot {σ : Type} [SnapshotStore σ] {r r' : Report} {s s' : σ}
    (h : r.writeSnapshot s = .ok (r', s')) : r'.edit? = r.edit? := by
  unfold writeSnapshot at h
  split at h
  · rename_i update hfix
    cases happly : update.apply s with
    | error e => rw [happly] at h; cases h
    | ok done =>
      rw [happly] at h
      cases h
      simp [edit?, hfix, Fix.edit, SnapshotUpdate.edit]
  · cases h
    rfl

theorem Writing.edits_run {σ : Type} [SnapshotStore σ] (store : σ) (rs : List Report) :
    (run store rs).reports.filterMap Report.edit? = rs.filterMap Report.edit? := by
  induction rs generalizing store with
  | nil => rfl
  | cons r rs ih =>
    rw [run]
    cases hwrite : r.writeSnapshot store with
    | error e => rfl
    | ok p =>
      rw [List.filterMap_cons, List.filterMap_cons, Report.edit?_of_writeSnapshot hwrite, ih]

/-- The edits are made unless a snapshot is refused. -/
theorem FileReport.outcome_applyFixes {σ : Type} [SnapshotStore σ] (r : FileReport) (source : Text)
    (store : σ) :
    (r.applyFixes source store).outcome =
      match (Writing.run store r.reports).refused with
      | some e => .error (.snapshot e)
      | none =>
        ((ChangeSet.ofList (r.reports.filterMap Report.edit?)).apply source).mapError .edit := by
  rw [← Writing.edits_run store]
  rfl

theorem FileReport.outcome_of_takes {σ : Type} [SnapshotStore σ] {r : FileReport} {store store' : σ}
    (h : Takes store (r.reports.filterMap Report.pending?) store') (source : Text) :
    (r.applyFixes source store).outcome =
      ((ChangeSet.ofList (r.reports.filterMap Report.edit?)).apply source).mapError .edit := by
  rw [outcome_applyFixes, Writing.run_of_takes h]

theorem FileReport.apply_of_applyFixes {σ : Type} [SnapshotStore σ] {r : FileReport}
    {source fixed : Text} {store : σ} (h : (r.applyFixes source store).outcome = .ok fixed) :
    (ChangeSet.ofList (r.reports.filterMap Report.edit?)).apply source = .ok fixed := by
  rw [outcome_applyFixes] at h
  split at h
  · cases h
  · cases happly : (ChangeSet.ofList (r.reports.filterMap Report.edit?)).apply source with
    | error e => rw [happly] at h; cases h
    | ok t =>
      rw [happly] at h
      cases h
      rfl

theorem FileReport.edits_unsorted (source : Text) (f : Findings) :
    (unsorted source f).filterMap Report.edit? =
      f.unmet.filterMap fun u => u.fix.map Fix.edit := by
  have hnone {α : Type} (g : α → Report) (hg : ∀ x, (g x).edit? = none) (xs : List α) :
      (xs.map g).filterMap Report.edit? = [] := by
    simp [List.filterMap_map, hg]
  rw [unsorted, List.filterMap_append, List.filterMap_append, List.filterMap_append,
    List.filterMap_append, hnone Report.ofMistake (fun _ => rfl),
    hnone Report.ofDuplicate (fun _ => rfl), hnone Report.ofMissingError (fun _ => rfl),
    hnone Report.ofOrphan (fun _ => rfl), List.filterMap_map]
  simp only [List.append_nil, List.nil_append]
  rfl

def Unmet.rewrite? (u : Unmet) : Option (CaretAssertion × Text) :=
  match u.expectation with
  | .line _ _ => none
  | .caret c => some (c, u.actual)

def CaretAssertion.rewriteEdit (p : CaretAssertion × Text) : TextEdit := p.1.replacement p.2

/-- An edit that changes nothing belongs to a caret that is met. -/
theorem HasCaret.isNoop_replacement {source : Text} {c : CaretAssertion} (h : HasCaret source c)
    {actual : Text} (hunmet : TypeText.meets .caret actual c.expected = false) :
    (c.replacement actual).isNoop = false := by
  obtain ⟨b, rfl, hb⟩ := h
  have hempty {margin t : Text} (ht : CaretAssertion.indented margin t = []) : t = [] := by
    cases t with
    | nil => rfl
    | cons ch t =>
      rw [CaretAssertion.indented, List.flatMap_cons] at ht
      split at ht <;> cases ht
  rw [Bool.eq_false_iff]
  intro hnoop
  rw [CaretBlock.replacement_eq hb, TextEdit.isNoop, Bool.and_eq_true, Span.isEmpty_iff,
    List.isEmpty_iff, List.append_eq_nil_iff] at hnoop
  obtain ⟨hspan, -, hactual⟩ := hnoop
  have hwritten : Line.dropReturn b.written = [] :=
    hempty (Text.size_eq_zero_iff.1 (Nat.left_eq_add.1 hspan))
  have hline : '\n' ∉ b.written := by
    rw [b.written_eq, hwritten, List.nil_append]
    exact b.feed_not_mem_ret
  rw [hempty hactual, hb.expected, Text.bare_last hline, hwritten, TypeText.meets_self] at hunmet
  cases hunmet

namespace Findings

variable (ctx : FileContext) (options : Options)

theorem not_rewritten_of_checkBound {b : Bound} {u : Unmet}
    (h : checkBound ctx options b = some u) :
    u.rewrite? = none ∧ ∀ e ∈ u.fix.map Fix.edit, e.isNoop = true := by
  rw [checkBound] at h
  split at h
  · cases h
  · obtain rfl := Option.some.inj h
    refine ⟨rfl, ?_⟩
    intro e he
    obtain ⟨fix, hfix, rfl⟩ := Option.map_eq_some_iff.1 he
    cases hb : b.assertion with
    | manual expected => simp [hb, fixFor] at hfix
    | snapshot name expected =>
      simp only [hb, fixFor] at hfix
      split at hfix
      · cases hfix
      · obtain rfl := Option.some.inj hfix
        rfl

theorem unmet_of_checkCaret {p : CaretAssertion × Option NodeId} {u : Unmet}
    (h : (checkCaret ctx p).unmet? = some u) :
    p.2.isSome = true ∧ u.expectation = .caret p.1 ∧
      u.fix = some (.replaceText (p.1.replacement u.actual)) ∧
      TypeText.meets .caret u.actual p.1.expected = false := by
  rw [checkCaret] at h
  split at h
  · cases h
  · rename_i n actual hnode
    split at h
    · cases h
    · rename_i hmeets
      obtain rfl := Option.some.inj h
      obtain ⟨m, hm, -⟩ := Option.bind_eq_some_iff.1 hnode
      exact ⟨by rw [hm]; rfl, rfl, rfl, Bool.eq_false_iff.2 hmeets⟩

variable {σ : Type} [SnapshotStore σ] (store : σ)

def edits : List TextEdit :=
  ((ofSource ctx options store).unmet.filterMap fun u => u.fix.map Fix.edit).filter (!·.isNoop)

def rewrites : List (CaretAssertion × Text) :=
  (ofSource ctx options store).unmet.filterMap Unmet.rewrite?

def caretNodes : List (CaretAssertion × Option NodeId) :=
  if options.expectType then
    (Assertions.ofSource ctx.source).carets.map fun c => (c, c.position.bind ctx.tree.locate)
  else []

theorem caretNodes_pairwise : (caretNodes ctx options).Pairwise fun p q => p.1.line < q.1.line := by
  unfold caretNodes
  split
  · exact List.pairwise_map.2 (carets_pairwise_line ctx.source)
  · exact List.Pairwise.nil

theorem hasCaret_of_checkCaret {p : CaretAssertion × Option NodeId} {u : Unmet}
    (hp : p ∈ caretNodes ctx options) (hu : (checkCaret ctx p).unmet? = some u) :
    HasCaret ctx.source p.1 := by
  unfold caretNodes at hp
  split at hp
  · obtain ⟨c, hc, rfl⟩ := List.mem_map.1 hp
    obtain ⟨hnode, -⟩ := unmet_of_checkCaret ctx hu
    obtain ⟨n, hn⟩ := Option.isSome_iff_exists.1 hnode
    obtain ⟨offset, hposition, -⟩ := Option.bind_eq_some_iff.1 hn
    have hline := line_pos_of_position hc (by rw [hposition]; rfl)
    exact hasCaret_of_mem hc hline
  · cases hp

theorem unmet_ofSource : ∃ bs : List Bound, (ofSource ctx options store).unmet =
    bs.filterMap (checkBound ctx options) ++
      (caretNodes ctx options).filterMap fun p => (checkCaret ctx p).unmet? :=
  ⟨_, rfl⟩

theorem rewrites_eq : rewrites ctx options store =
    (caretNodes ctx options).filterMap fun p =>
      (checkCaret ctx p).unmet?.map fun u => (p.1, u.actual) := by
  obtain ⟨bs, hunmet⟩ := unmet_ofSource ctx options store
  have hbound : (bs.filterMap (checkBound ctx options)).filterMap Unmet.rewrite? = [] := by
    rw [List.filterMap_eq_nil_iff]
    intro u hu
    obtain ⟨b, -, hb⟩ := List.mem_filterMap.1 hu
    exact (not_rewritten_of_checkBound ctx options hb).1
  rw [rewrites, hunmet, List.filterMap_append, hbound, List.nil_append, List.filterMap_filterMap]
  refine List.filterMap_congr fun p _ => ?_
  cases hu : (checkCaret ctx p).unmet? with
  | none => rfl
  | some u => simp [Unmet.rewrite?, (unmet_of_checkCaret ctx hu).2.1]

theorem mem_rewrites {p : CaretAssertion × Text} (h : p ∈ rewrites ctx options store) :
    (∃ u ∈ (ofSource ctx options store).unmet, u.expectation = .caret p.1 ∧ u.actual = p.2) ∧
      HasCaret ctx.source p.1 ∧ TypeText.meets .caret p.2 p.1.expected = false := by
  rw [rewrites_eq] at h
  obtain ⟨q, hq, hqp⟩ := List.mem_filterMap.1 h
  obtain ⟨u, hu, rfl⟩ := Option.map_eq_some_iff.1 hqp
  obtain ⟨-, hexpectation, -, hmeets⟩ := unmet_of_checkCaret ctx hu
  have hmem : u ∈ (ofSource ctx options store).unmet :=
    List.mem_append_right _ (List.mem_filterMap.2 ⟨q, hq, hu⟩)
  exact ⟨⟨u, hmem, hexpectation, rfl⟩, hasCaret_of_checkCaret ctx options hq hu, hmeets⟩

theorem rewrites_pairwise :
    (rewrites ctx options store).Pairwise fun p q => p.1.line < q.1.line := by
  rw [rewrites_eq]
  refine (caretNodes_pairwise ctx options).filterMap _ ?_
  rintro p q hlt p' hp' q' hq'
  obtain ⟨u, -, rfl⟩ := Option.map_eq_some_iff.1 hp'
  obtain ⟨u', -, rfl⟩ := Option.map_eq_some_iff.1 hq'
  exact hlt

theorem edits_eq : edits ctx options store =
    (rewrites ctx options store).map CaretAssertion.rewriteEdit := by
  obtain ⟨bs, hunmet⟩ := unmet_ofSource ctx options store
  have hbound : ((bs.filterMap (checkBound ctx options)).filterMap
      fun u => u.fix.map Fix.edit).filter (!·.isNoop) = [] := by
    rw [List.filter_eq_nil_iff]
    intro e he
    obtain ⟨u, hu, he⟩ := List.mem_filterMap.1 he
    obtain ⟨b, -, hb⟩ := List.mem_filterMap.1 hu
    simp [(not_rewritten_of_checkBound ctx options hb).2 e he]
  have hcarets : ((caretNodes ctx options).filterMap fun p => (checkCaret ctx p).unmet?).filterMap
      (fun u => u.fix.map Fix.edit) =
        (rewrites ctx options store).map CaretAssertion.rewriteEdit := by
    rw [rewrites_eq, List.map_filterMap, List.filterMap_filterMap]
    refine List.filterMap_congr fun p _ => ?_
    cases hu : (checkCaret ctx p).unmet? with
    | none => rfl
    | some u => simp [(unmet_of_checkCaret ctx hu).2.2.1, Fix.edit, CaretAssertion.rewriteEdit]
  rw [edits, hunmet, List.filterMap_append, List.filter_append, hbound, List.nil_append, hcarets,
    List.filter_eq_self]
  intro e he
  obtain ⟨p, hp, rfl⟩ := List.mem_map.1 he
  obtain ⟨-, hcaret, hmeets⟩ := mem_rewrites ctx options store hp
  rw [CaretAssertion.rewriteEdit, hcaret.isNoop_replacement hmeets]
  rfl

theorem ascending_edits : ChangeSet.Ascending (edits ctx options store) := by
  rw [edits_eq]
  refine List.pairwise_map.2 ((List.Pairwise.and_mem.1 (rewrites_pairwise ctx options store)).imp ?_)
  rintro p q ⟨hp, hq, hlt⟩
  exact start_lt_of_line_lt (mem_rewrites ctx options store hp).2.1
    (mem_rewrites ctx options store hq).2.1 hlt

end Findings

variable {σ τ : Type} [SnapshotStore σ] [SnapshotStore τ]

/-- The carets that the report on a file gives new texts. -/
def FileContext.rewrites (ctx : FileContext) (options : Options) (store : σ) :
    List (CaretAssertion × Text) :=
  if ctx.checker.containsFile ctx.file then Findings.rewrites ctx options store else []

theorem rewrites_of_not_mayOccur {ctx : FileContext}
    (h : Directive.mayOccur ctx.source = false) (options : Options) (store : σ) :
    Findings.rewrites ctx options store = [] := by
  rw [List.eq_nil_iff_forall_not_mem]
  intro p hp
  obtain ⟨-, hcaret, -⟩ := Findings.mem_rewrites ctx options store hp
  obtain ⟨c, hc, -⟩ := mem_carets_of_hasCaret hcaret
  obtain ⟨front, l, below, k, indent, rest, hlines, hk, hd, -⟩ := mem_carets_ofSource.1 hc
  have hmem : k ∈ Comment.all ctx.source := Comment.mem_all.2 ⟨l, by simp [hlines], hk⟩
  have hoccurs :=
    Comment.mayOccur_of_mem_all hmem (Directive.ofBody?_eq_some_iff.1 hd).mayOccur
  rw [h] at hoccurs
  cases hoccurs

/-- The edits of a report are those of the carets that it gives new texts. -/
theorem edits_checkFile (ctx : FileContext) (options : Options) (store : σ) :
    (((checkFile ctx options store).reports.filterMap Report.edit?).filter (!·.isNoop)).Perm
      ((ctx.rewrites options store).map CaretAssertion.rewriteEdit) := by
  rw [FileContext.rewrites]
  unfold checkFile
  split
  · split
    · have hperm := (FileReport.ofFindings_perm ctx.file ctx.source
        (Findings.ofSource ctx options store)).filterMap Report.edit?
      rw [FileReport.edits_unsorted] at hperm
      rw [← Findings.edits_eq]
      exact hperm.filter _
    · rename_i hmark
      rw [rewrites_of_not_mayOccur (Bool.eq_false_iff.2 hmark)]
      exact List.Perm.refl _
  · exact List.Perm.refl _

theorem rewrites_sublist (ctx : FileContext) (options : Options) (store : σ) :
    (ctx.rewrites options store).Sublist (Findings.rewrites ctx options store) := by
  unfold FileContext.rewrites
  split
  · exact List.Sublist.refl _
  · exact List.nil_sublist _

theorem ascending_rewrites (ctx : FileContext) (options : Options) (store : σ) :
    ChangeSet.Ascending ((ctx.rewrites options store).map CaretAssertion.rewriteEdit) := by
  have hascending := Findings.ascending_edits ctx options store
  rw [Findings.edits_eq] at hascending
  exact hascending.sublist ((rewrites_sublist ctx options store).map _)

/-- If the snapshots are taken, a report's fixes give what its carets' edits give, one after the
other from the last to the first. -/
theorem applyFixes_of_applyAll {ctx : FileContext} {options : Options} {store : σ}
    {target target' : τ} (htakes : Takes target
      ((checkFile ctx options store).reports.filterMap Report.pending?) target')
    (hapart : ((ctx.rewrites options store).map CaretAssertion.rewriteEdit).Pairwise
      fun a b => a.span.stop ≤ b.span.start) {fixed : Text}
    (h : ChangeSet.applyAll ((ctx.rewrites options store).map CaretAssertion.rewriteEdit).reverse
      ctx.source = .ok fixed) :
    ((checkFile ctx options store).applyFixes ctx.source target).outcome = .ok fixed := by
  rw [FileReport.outcome_of_takes htakes, (ChangeSet.apply_ofList_eq_ok_iff
    (edits_checkFile ctx options store) (ascending_rewrites ctx options store)).2 ⟨hapart, h⟩]
  rfl

theorem relates_of_applyFixes {R : CaretAssertion × Text → Text → Text → Prop}
    {S : List (CaretAssertion × Text) → Text → Text → Prop} (hnil : ∀ t, S [] t t)
    (hconcat : ∀ {ps p t u v}, R p t u → S ps u v → S (ps ++ [p]) t v) {ctx : FileContext}
    {options : Options} {store : σ}
    (hR : ∀ p ∈ ctx.rewrites options store,
      (CaretAssertion.rewriteEdit p).Respects (R p) ctx.source) {target : τ} {fixed : Text}
    (h : ((checkFile ctx options store).applyFixes ctx.source target).outcome = .ok fixed) :
    ((ctx.rewrites options store).Pairwise fun p q => p.1.range.stop ≤ q.1.range.start) ∧
      S (ctx.rewrites options store) ctx.source fixed := by
  obtain ⟨hapart, happly⟩ := (ChangeSet.apply_ofList_eq_ok_iff (edits_checkFile ctx options store)
    (ascending_rewrites ctx options store)).1 (FileReport.apply_of_applyFixes h)
  rw [List.pairwise_map] at hapart
  exact ⟨hapart, ChangeSet.applyAll_relates_source hnil hconcat hR hapart happly⟩

theorem lastLine_le_of_stop_le {source : Text} {c d : CaretAssertion} (hc : HasCaret source c)
    (hd : HasCaret source d) (h : c.range.stop ≤ d.range.start) : c.lastLine ≤ d.line := by
  obtain ⟨b, rfl, hb⟩ := hc
  obtain ⟨b', htext, hb'⟩ := hd
  have hstart : b'.above ++ b'.head <+: b.text :=
    ⟨CaretAssertion.indented b'.margin b'.written ++ b'.after,
      by rw [← htext]; simp [CaretBlock.text]⟩
  have hprefix : b.upToEnd <+: b'.above ++ b'.head := by
    refine Text.prefix_of_size_le b.prefix_text hstart ?_
    rw [hb.range, hb'.range] at h
    exact h
  have hcount := hprefix.sublist.count_le '\n'
  rw [b.count_upToEnd, List.count_append, List.count_eq_zero.2 b'.feed_not_mem_head, Nat.add_zero,
    ← hb.line, ← hb'.line] at hcount
  rwa [CaretAssertion.lastLine, hb.expected, Text.count_bare]

/-- There is no code before the caret, or the text found has as many lines as the expected one. -/
def Unmet.keepsCode (u : Unmet) : Bool :=
  match u.expectation with
  | .line _ _ => true
  | .caret c => Text.allBlank (Text.codePart c.margin) ||
      u.actual.count '\n' == c.expected.count '\n'

/-- Fixes give each line's code as many lines as `copies` says: more or fewer only for carets that
get new texts, and none if every unmet caret has no code before it or gets as many lines as it had.
-/
theorem code_of_applyFixes (ctx : FileContext) (options : Options) (store : σ) (target : τ)
    {fixed : Text}
    (h : ((checkFile ctx options store).applyFixes ctx.source target).outcome = .ok fixed) :
    Text.codeLines fixed = repeatLines (CaretAssertion.copies (ctx.rewrites options store)) 0
        (Text.codeLines ctx.source) ∧
      ((∀ u ∈ (Findings.ofSource ctx options store).unmet, u.keepsCode = true) →
        Text.code fixed = Text.code ctx.source) := by
  have hmem {p : CaretAssertion × Text} (hp : p ∈ ctx.rewrites options store) :=
    Findings.mem_rewrites ctx options store ((rewrites_sublist ctx options store).subset hp)
  have hlines := (Findings.rewrites_pairwise ctx options store).sublist
    (rewrites_sublist ctx options store)
  constructor
  · obtain ⟨hapart, hrepeats⟩ := relates_of_applyFixes CaretAssertion.repeats_nil
      CaretAssertion.Repeats.concat (fun p hp => (hmem hp).2.1.respects_runBecomes p.2) h
    refine hrepeats ((hlines.and hapart).imp_of_mem ?_)
    rintro p q hp hq ⟨hlt, hle⟩
    exact ⟨hlt, lastLine_le_of_stop_le (hmem hp).2.1 (hmem hq).2.1 hle⟩
  · intro hkeeps
    symm
    refine (relates_of_applyFixes (R := fun _ t u => Text.code t = Text.code u)
      (S := fun _ t u => Text.code t = Text.code u) (fun _ => rfl) Eq.trans ?_ h).2
    intro p hp
    obtain ⟨⟨u, hu, hc, hactual⟩, hcaret, -⟩ := hmem hp
    have hsame := hkeeps u hu
    rw [Unmet.keepsCode, hc, hactual] at hsame
    simp only [Bool.or_eq_true, beq_iff_eq] at hsame
    exact hcaret.respects_code hsame

def caretFile (source : Text) : FileContext where
  file := "a.ts".toList
  source := source
  tree := ⟨#[⟨"File", ⟨0, 10⟩, .other, [1]⟩, ⟨"Variable", ⟨0, 10⟩, .other, []⟩]⟩
  checker := ⟨fun _ => true, fun _ => none⟩
  service := ⟨fun _ _ => some ⟨["A\nB".toList]⟩⟩
  diagnostics := []

/-- Below a statement with a caret the same statement with another one, on which the expected text
of the first goes on. -/
def touchingCarets : FileContext :=
  { caretFile "let x = 1;\nf(); // ^? T\nf(); //    ^?\ng();".toList with
    tree := ⟨#[⟨"File", ⟨0, 42⟩, .other, [1]⟩, ⟨"Block", ⟨0, 42⟩, .other, []⟩]⟩ }

/-- A caret of a comment line leaves the code alone; of two carets after code that touch, each gets
two lines, of which one has both. -/
theorem caret_of_comment_line_keeps_code :
    (((checkFile (caretFile "let x = 1;\n//  ^? T\nf();".toList) {} ({} : MemoryStore)).applyFixes
      "let x = 1;\n//  ^? T\nf();".toList ({} : MemoryStore)).outcome =
        .ok "let x = 1;\n//  ^? A\n//     B\nf();".toList ∧
    Text.code "let x = 1;\n//  ^? A\n//     B\nf();".toList =
      Text.code "let x = 1;\n//  ^? T\nf();".toList) ∧
    ((checkFile touchingCarets {} ({} : MemoryStore)).applyFixes touchingCarets.source
      ({} : MemoryStore)).outcome =
        .ok "let x = 1;\nf(); // ^? A\nf(); //    B A\nf(); //       B\ng();".toList ∧
    (List.range 4).map (CaretAssertion.copies
      (touchingCarets.rewrites {} ({} : MemoryStore))) = [1, 2, 1, 1] ∧
    Text.codeLines "let x = 1;\nf(); // ^? A\nf(); //    B A\nf(); //       B\ng();".toList =
      repeatLines (CaretAssertion.copies (touchingCarets.rewrites {} ({} : MemoryStore))) 0
        (Text.codeLines touchingCarets.source) := by
  have hfixed : ((checkFile (caretFile "let x = 1;\n//  ^? T\nf();".toList) {}
      ({} : MemoryStore)).applyFixes "let x = 1;\n//  ^? T\nf();".toList
        ({} : MemoryStore)).outcome =
          .ok "let x = 1;\n//  ^? A\n//     B\nf();".toList := by decide +kernel
  have hcode := code_of_applyFixes (caretFile "let x = 1;\n//  ^? T\nf();".toList) {}
    ({} : MemoryStore) ({} : MemoryStore) hfixed
  have htouching : ((checkFile touchingCarets {} ({} : MemoryStore)).applyFixes
      touchingCarets.source ({} : MemoryStore)).outcome =
        .ok "let x = 1;\nf(); // ^? A\nf(); //    B A\nf(); //       B\ng();".toList :=
    applyFixes_of_applyAll (MemoryStore.takes_writeAll _ _) (by decide +kernel) (by decide +kernel)
  exact ⟨⟨hfixed, hcode.2 (by decide +kernel)⟩, htouching, by decide +kernel,
    (code_of_applyFixes touchingCarets {} ({} : MemoryStore) ({} : MemoryStore) htouching).1⟩

/-- The code before a caret is repeated when the caret gets a second line. -/
theorem caret_after_code_repeats_code :
    ¬ ∀ (ctx : FileContext) (options : Options) (store : MemoryStore) (fixed : Text),
      ((checkFile ctx options store).applyFixes ctx.source store).outcome = .ok fixed →
        Text.code fixed = Text.code ctx.source := by
  intro h
  have hcode := h (caretFile "let x = 1;\nf(); // ^? T".toList) {} {}
    "let x = 1;\nf(); // ^? A\nf(); //    B".toList (by decide +kernel)
  revert hcode
  decide +kernel

end TypeComments
