import TypeComments.Check
import TypeComments.Proofs.Assertion.Contributions
import TypeComments.Proofs.Binding
import TypeComments.Proofs.Comment.Standing
import TypeComments.Proofs.Tree.PreOrder

/-! What it means that a file does what its comments say, told without lists of findings: of every
comment on a physical line that is a directive, on its own, and of every two that are about one
line. The main statement is that a check reports nothing exactly on such files. -/

namespace TypeComments

namespace FileContext

/-- `n` is the node whose type an assertion about `line` speaks of. -/
def SpeaksOf (ctx : FileContext) (line : Nat) (n : NodeId) : Prop :=
  ∃ ns first, ctx.tree.PreOrder (ctx.tree.children SyntaxTree.root) ns ∧
    ns.find? (fun m => (LineTable.ofText ctx.source).lineIndex (ctx.tree.span m).start = line) =
      some first ∧
    n = ctx.tree.retarget first

def IsAt (ctx : FileContext) (offset : Nat) (n : NodeId) : Prop :=
  ∃ c, ctx.tree.childAt? SyntaxTree.root offset = some c ∧ ctx.tree.DescendsTo offset c n

/-- What an editor shows at the character above a caret is the text written after the caret and on
the lines that continue it. -/
def CaretMet (ctx : FileContext) (c : Comment) (indent : Nat) (rest : Text) : Prop :=
  let lead := c.before ++ "//".toList ++ List.replicate indent ' '
  ∃ above : Line, above.StandsIn ctx.source ∧ above.number + 1 = c.line.number ∧
    lead.length < above.text.length ∧
    ∃ further, CaretAssertion.ContinuesAt ctx.source (lead ++ "   ".toList) (c.line.number + 1)
      further ∧
    ∃ n actual, ctx.IsAt (above.start + Text.size (above.text.take lead.length)) n ∧
      ctx.quickInfo? n = some actual ∧
      TypeText.normalize actual =
        TypeText.normalize (rest.drop 1 ++ further.flatMap fun t => '\n' :: t)

/-- The file does what a directive in the comment `c` asks; `read` gives the stored snapshots. -/
def Meets (ctx : FileContext) (read : Text → Option Text) (c : Comment) : Directive → Prop
  | .expectType none => False
  | .expectType (some expected) => ∃ line n, c.IsAbout line ∧ ctx.SpeaksOf line n ∧
      TypeText.meets .manual (ctx.typeText n) expected = true
  | .expectTypeSnapshot none => False
  | .expectTypeSnapshot (some name) => ∃ line n expected, c.IsAbout line ∧ ctx.SpeaksOf line n ∧
      read name = some expected ∧ TypeText.meets .snapshot (ctx.typeText n) expected = true
  | .expectError => ∃ span ∈ ctx.diagnostics,
      c.IsAbout ((LineTable.ofText ctx.source).lineIndex span.start)
  | .caret indent rest => (rest = [] ∨ rest.head? = some ' ') ∧ ctx.CaretMet c indent rest

end FileContext

def Comment.AsksType (c : Comment) : Prop :=
  ∃ argument, Directive.Written c.body (.expectType argument) ∨
    Directive.Written c.body (.expectTypeSnapshot argument)

/-- Every directive of the file is met, and no line is asked about twice. -/
structure FileContext.Satisfied (ctx : FileContext) (read : Text → Option Text) : Prop where
  met : ∀ c : Comment, c.StandsIn ctx.source → ∀ d, Directive.Written c.body d → ctx.Meets read c d
  oneType : ∀ c c' : Comment, ∀ line, c.StandsIn ctx.source → c'.StandsIn ctx.source →
    c.AsksType → c'.AsksType → c.IsAbout line → c'.IsAbout line → c = c'
  oneError : ∀ c c' : Comment, ∀ line, c.StandsIn ctx.source → c'.StandsIn ctx.source →
    c.AsksError → c'.AsksError → c.IsAbout line → c'.IsAbout line → c = c'

def TypeAssertion.filled (read : Text → Option Text) : TypeAssertion → TypeAssertion
  | .manual expected => .manual expected
  | .snapshot name _ => .snapshot name (read name)

def Options.asksFor (options : Options) : TypeAssertion → Bool
  | .manual _ => options.expectType
  | .snapshot _ _ => options.expectTypeSnapshot

theorem TypeAssertion.getElem?_enable (options : Options) (read : Text → Option Text)
    (types : Std.ExtTreeMap Nat TypeAssertion) (k : Nat) :
    (types.filterMap fun _ t => t.enable options read)[k]? =
      (types[k]?.filter options.asksFor).map (filled read) := by
  rw [Std.ExtTreeMap.getElem?_filterMap]
  cases types[k]? with
  | none => rfl
  | some t =>
    have henable : t.enable options read =
        if options.asksFor t then some (t.filled read) else none := by cases t <;> rfl
    cases hasks : options.asksFor t <;> simp [henable, hasks]

def Record.Met (ctx : FileContext) (read : Text → Option Text) : Record → Prop
  | .type line t => ∃ n, ctx.SpeaksOf line n ∧
      (t.filled read).expected?.any (TypeText.meets t.kind (ctx.typeText n)) = true
  | .error line => ∃ span ∈ ctx.diagnostics,
      (LineTable.ofText ctx.source).lineIndex span.start = line
  | .mistake _ => False
  | .caret c => Findings.checkCaret ctx (c, c.position.bind ctx.tree.locate) = .met

variable {read : Text → Option Text}

namespace Findings

theorem checkCaret_eq_met_iff {ctx : FileContext} {c : CaretAssertion} {n? : Option NodeId} :
    checkCaret ctx (c, n?) = .met ↔ ∃ n actual, n? = some n ∧ ctx.quickInfo? n = some actual ∧
      TypeText.normalize actual = TypeText.normalize c.expected := by
  rw [checkCaret]
  cases n? with
  | none => simp
  | some n =>
    cases hq : ctx.quickInfo? n with
    | none => simp [hq]
    | some actual =>
      by_cases hm : TypeText.meets .caret actual c.expected = true
      · have heq : TypeText.normalize actual = TypeText.normalize c.expected := by
          simpa [TypeText.meets] using hm
        simp [hq, hm, heq]
      · have hne : TypeText.normalize actual ≠ TypeText.normalize c.expected := by
          simpa [TypeText.meets] using hm
        simp [hq, hm, hne]

end Findings

theorem caretMet_iff {ctx : FileContext} (ht : ctx.tree.Acyclic) {front below : List Line}
    {l : Line} (h : lines ctx.source = front ++ l :: below) {c : Comment} (hc : c.line = l)
    (indent : Nat) (rest : Text) :
    (Record.caret (CaretAssertion.ofComment front.getLast? c indent rest below)).Met ctx read ↔
      ctx.CaretMet c indent rest := by
  subst hc
  have hnumber := number_of_lines_eq_append h
  have hbelow : (lines ctx.source).drop (c.line.number + 1) = below := by
    rw [h, hnumber, List.drop_append]
    simp
  simp only [FileContext.CaretMet, Record.Met, Findings.checkCaret_eq_met_iff, ← mem_lines_iff,
    CaretAssertion.continuesAt_iff, hbelow, exists_eq_left', List.flatMap_map]
  cases hlast : front.getLast? with
  | none =>
    have hnil : front = [] := List.getLast?_eq_none_iff.1 hlast
    constructor
    · rintro ⟨n, actual, hn, -⟩
      cases hn
    · rintro ⟨above, -, habove, -⟩
      rw [hnumber, hnil] at habove
      cases habove
  | some above =>
    have habove := (getLast?_front_iff h).1 hlast
    simp only [CaretAssertion.ofComment, Option.bind_eq_some_iff,
      CaretAssertion.pointAt_eq_some_iff, SyntaxTree.locate_eq_some_iff ht]
    constructor
    · rintro ⟨n, actual, ⟨p, ⟨hlt, rfl⟩, hn⟩, hactual, hexpected⟩
      exact ⟨above, habove.1, by omega, hlt, n, actual, hn, hactual, hexpected⟩
    · rintro ⟨x, hx, hxnumber, hlt, n, actual, hn, hactual, hexpected⟩
      have hx : front.getLast? = some x := (getLast?_front_iff h).2 ⟨hx, by omega⟩
      obtain rfl := Option.some.inj (hlast.symm.trans hx)
      exact ⟨n, actual, ⟨_, ⟨hlt, rfl⟩, hn⟩, hactual, hexpected⟩

theorem met_ofDirective_iff {ctx : FileContext} (ht : ctx.tree.Acyclic) {front below : List Line}
    {l : Line} (h : lines ctx.source = front ++ l :: below) {c : Comment} (hc : c.line = l)
    (d : Directive) :
    (Record.ofDirective front.getLast? c below d).Met ctx read ↔ ctx.Meets read c d := by
  rcases d with (_ | expected) | (_ | name) | _ | ⟨indent, rest⟩
  case expectType.none => rfl
  case expectType.some =>
    simp only [FileContext.Meets, Comment.isAbout_iff, exists_and_left, exists_eq_left']
    rfl
  case expectTypeSnapshot.none => rfl
  case expectTypeSnapshot.some =>
    simp only [Record.ofDirective, Record.Met, FileContext.Meets, TypeAssertion.filled,
      TypeAssertion.expected?, TypeAssertion.kind, Option.any_eq_true, Comment.isAbout_iff,
      exists_and_left, exists_eq_left']
  case expectError =>
    simp only [FileContext.Meets, Comment.isAbout_iff, @eq_comm _ c.subject]
    rfl
  case caret =>
    rw [Record.ofDirective, FileContext.Meets]
    split
    · rename_i hrest
      rw [caretMet_iff ht h hc]
      simp [hrest]
    · rename_i hrest
      simp [hrest, Record.Met]

theorem asksType_iff {ctx : FileContext} {c : Comment}
    (hmet : ∀ d, Directive.Written c.body d → ctx.Meets read c d) :
    c.AsksType ↔ c.AssertsType := by
  constructor
  · rintro ⟨_ | argument, hwritten | hwritten⟩
    · exact (hmet _ hwritten).elim
    · exact (hmet _ hwritten).elim
    · exact ⟨_, .manual hwritten⟩
    · exact ⟨_, .snapshot hwritten⟩
  · rintro ⟨_, hwritten | hwritten⟩
    · exact ⟨_, Or.inl hwritten⟩
    · exact ⟨_, Or.inr hwritten⟩

theorem forall_countP_le_one_iff {p : Nat → Record → Bool} {Asks : Comment → Prop} (source : Text)
    (hAsks : ∀ k, ∀ c ∈ Comment.all source,
      (Record.ofComment? source c).any (p k) = true ↔ c.subject = k ∧ Asks c) :
    (∀ k, (Record.ofSource source).countP (p k) ≤ 1) ↔
      ∀ c c' : Comment, ∀ k, c.StandsIn source → c'.StandsIn source → Asks c → Asks c' →
        c.IsAbout k → c'.IsAbout k → c = c' := by
  simp only [fun k => Record.countP_ofSource_le_one_iff (hAsks k), ← Comment.mem_all_iff,
    Comment.isAbout_iff]
  constructor
  · intro h c c' k hc hc' ha ha' hk hk'
    exact h k c hc c' hc' ⟨hk, ha⟩ ⟨hk', ha'⟩
  · rintro h k c hc c' hc' ⟨hk, ha⟩ ⟨hk', ha'⟩
    exact h c c' k hc hc' ha ha' hk hk'

/-- The records of a source are met if its directives are. -/
theorem met_ofSource_iff {ctx : FileContext} (ht : ctx.tree.Acyclic) :
    (∀ r ∈ Record.ofSource ctx.source, r.Met ctx read) ↔
      ∀ c : Comment, c.StandsIn ctx.source → ∀ d, Directive.Written c.body d →
        ctx.Meets read c d := by
  simp only [← Comment.mem_all_iff]
  constructor
  · intro h c hc d hd
    obtain ⟨l, hl, hcl⟩ := Comment.mem_all.1 hc
    obtain ⟨front, below, hlines⟩ := List.append_of_mem hl
    rw [← met_ofDirective_iff ht hlines (Comment.line_of_ofLine? hcl)]
    apply h
    refine Record.mem_ofLines.2 ⟨front, l, below, c, d, hlines, hcl, ?_, ?_⟩
    · exact Directive.ofBody?_eq_some_iff.2 hd
    · rw [Option.or_none]
  · intro h r hr
    obtain ⟨front, l, below, c, d, hlines, hcl, hd, rfl⟩ := Record.mem_ofLines.1 hr
    rw [Option.or_none, met_ofDirective_iff ht hlines (Comment.line_of_ofLine? hcl)]
    have hmem : l ∈ lines ctx.source := by simp [hlines]
    exact h c (Comment.mem_all.2 ⟨l, hmem, hcl⟩) d (Directive.ofBody?_eq_some_iff.1 hd)

/-- A file is satisfied if each of its records is met and no line has two of a sort. -/
theorem satisfied_iff_records {ctx : FileContext} (ht : ctx.tree.Acyclic) :
    ctx.Satisfied read ↔ (∀ r ∈ Record.ofSource ctx.source, r.Met ctx read) ∧
      ∀ k, (Record.ofSource ctx.source).countP (fun r => (r.typeOn? k).isSome) ≤ 1 ∧
        (Record.ofSource ctx.source).countP (Record.isErrorOn k) ≤ 1 := by
  have hError := forall_countP_le_one_iff ctx.source fun k c hc =>
    Record.any_isErrorOn_ofComment? (k := k) hc
  -- A comment without an argument asks for a type and leaves no record of one; a file in which all
  -- directives are met has no such comment.
  have hType (h : ∀ c : Comment, c.StandsIn ctx.source → ∀ d, Directive.Written c.body d →
      ctx.Meets read c d) :=
    forall_countP_le_one_iff ctx.source fun k c hc =>
      (Record.any_typeOn?_ofComment? hc).trans
        (and_congr_right' (asksType_iff (h c (Comment.mem_all_iff.1 hc))).symm)
  rw [met_ofSource_iff ht, forall_and, hError]
  constructor
  · rintro ⟨h, hone, honeError⟩
    exact ⟨h, (hType h).2 hone, honeError⟩
  · rintro ⟨h, hone, honeError⟩
    exact ⟨h, (hType h).1 hone, honeError⟩

end TypeComments
