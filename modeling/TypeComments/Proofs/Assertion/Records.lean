import Mathlib.Data.List.Induction
import TypeComments.Assertion.Source

/-! The assertions of a source as a sequence of records, one for each comment that is a directive.
Adding a record changes one part of the assertions; what all of them together leave behind is read
off the sequence. Two records of one sort about a line cancel each other, and mark it. -/

namespace TypeComments

/-- What one directive adds to the assertions of a file. -/
inductive Record
  | type (line : Nat) (assertion : TypeAssertion)
  | error (line : Nat)
  | mistake (m : MistakeAt)
  | caret (c : CaretAssertion)

namespace Record

def typeOn? (k : Nat) : Record → Option TypeAssertion
  | type line assertion => if line = k then some assertion else none
  | _ => none

def isErrorOn (k : Nat) : Record → Bool
  | error line => line = k
  | _ => false

def mistake? : Record → Option MistakeAt
  | mistake m => some m
  | _ => none

def caret? : Record → Option CaretAssertion
  | caret c => some c
  | _ => none

def ofDirective (above : Option Line) (c : Comment) (below : List Line) : Directive → Record
  | .expectType (some expected) => type c.subject (.manual expected)
  | .expectType none => mistake ⟨.missingType, c.subject⟩
  | .expectTypeSnapshot (some name) => type c.subject (.snapshot name none)
  | .expectTypeSnapshot none => mistake ⟨.missingSnapshotName, c.subject⟩
  | .expectError => error c.subject
  | .caret indent rest =>
    if rest = [] ∨ rest.head? = some ' ' then
      caret (CaretAssertion.ofComment above c indent rest below)
    else mistake ⟨.caretSpacing, c.subject⟩

def ofLines (above : Option Line) : List Line → List Record
  | [] => []
  | l :: below =>
    ((Comment.ofLine? l).bind fun c =>
      (Directive.ofBody? c.body).map (ofDirective above c below)).toList ++ ofLines (some l) below

def ofSource (source : Text) : List Record := ofLines none (lines source)

theorem mem_ofLines {above : Option Line} {ls : List Line} {r : Record} :
    r ∈ ofLines above ls ↔ ∃ front l below c d, ls = front ++ l :: below ∧
      Comment.ofLine? l = some c ∧ Directive.ofBody? c.body = some d ∧
        r = ofDirective (front.getLast?.or above) c below d := by
  induction ls generalizing above with
  | nil => simp [ofLines]
  | cons l ls ih =>
    simp only [ofLines, List.mem_append, Option.mem_toList,
      Option.bind_eq_some_iff, Option.map_eq_some_iff, ih]
    constructor
    · rintro (⟨c, hc, d, hd, rfl⟩ | ⟨front, l', below, c, d, rfl, hc, hd, rfl⟩)
      · exact ⟨[], l, ls, c, d, rfl, hc, hd, rfl⟩
      · refine ⟨l :: front, l', below, c, d, rfl, hc, hd, ?_⟩
        cases front <;> simp [List.getLast?_cons]
    · rintro ⟨front, l', below, c, d, h, hc, hd, rfl⟩
      cases front with
      | nil =>
        obtain ⟨rfl, rfl⟩ := List.cons.inj h
        exact Or.inl ⟨c, hc, d, hd, rfl⟩
      | cons l₀ front =>
        obtain ⟨rfl, rfl⟩ := List.cons.inj h
        refine Or.inr ⟨front, l', below, c, d, rfl, hc, hd, ?_⟩
        cases front <;> simp [List.getLast?_cons]

theorem isErrorOn_iff {k : Nat} {r : Record} : r.isErrorOn k = true ↔ r = error k := by
  cases r <;> simp [isErrorOn]

theorem typeOn?_eq_some_iff {k : Nat} {r : Record} {t : TypeAssertion} :
    r.typeOn? k = some t ↔ r = type k t := by
  cases r <;> simp [typeOn?]

theorem mem_filterMap_typeOn? {rs : List Record} {k : Nat} {t : TypeAssertion} :
    t ∈ rs.filterMap (typeOn? k) ↔ type k t ∈ rs := by
  simp [List.mem_filterMap, typeOn?_eq_some_iff]

theorem mem_filterMap_mistake? {rs : List Record} {m : MistakeAt} :
    m ∈ rs.filterMap mistake? ↔ mistake m ∈ rs := by
  have hiff (r : Record) : r.mistake? = some m ↔ r = mistake m := by
    cases r <;> simp [mistake?]
  simp [List.mem_filterMap, hiff]

theorem mem_filterMap_caret? {rs : List Record} {c : CaretAssertion} :
    c ∈ rs.filterMap caret? ↔ caret c ∈ rs := by
  have hiff (r : Record) : r.caret? = some c ↔ r = caret c := by
    cases r <;> simp [caret?]
  simp [List.mem_filterMap, hiff]

end Record

namespace Assertions

def add (a : Assertions) : Record → Assertions
  | .type line assertion => a.insertType line assertion
  | .error line => a.insertError line
  | .mistake m => a.addMistake m.mistake m.line
  | .caret c => a.addCaret c

theorem addDirective_eq_add (a : Assertions) (above : Option Line) (c : Comment)
    (below : List Line) (d : Directive) :
    a.addDirective above c below d = a.add (Record.ofDirective above c below d) := by
  rcases d with (_ | _) | (_ | _) | _ | ⟨indent, rest⟩
  case caret =>
    simp only [addDirective, Record.ofDirective]
    split <;> rfl
  all_goals rfl

theorem addLines_eq_foldl (a : Assertions) (above : Option Line) (ls : List Line) :
    a.addLines above ls = (Record.ofLines above ls).foldl add a := by
  induction ls generalizing a above with
  | nil => rfl
  | cons l below ih =>
    rw [addLines, ih, Record.ofLines, List.foldl_append]
    congr 1
    unfold addLine
    cases hc : Comment.ofLine? l with
    | none => rfl
    | some c =>
      cases hd : Directive.ofBody? c.body with
      | none => simp [hd]
      | some d => simp [hd, addDirective_eq_add]

/-- The assertions of a source are those its records leave behind. -/
theorem ofSource_eq_foldl (source : Text) :
    ofSource source = (Record.ofSource source).foldl add {} :=
  addLines_eq_foldl {} none (lines source)

@[simp] theorem mistakes_add (a : Assertions) (r : Record) :
    (a.add r).mistakes = a.mistakes ++ r.mistake?.toList := by
  cases r with
  | type line t => rw [add, insertType]; split <;> simp [Record.mistake?]
  | error line => rw [add, insertError]; split <;> simp [Record.mistake?]
  | mistake m => rfl
  | caret c => simp [add, addCaret, Record.mistake?]

@[simp] theorem carets_add (a : Assertions) (r : Record) :
    (a.add r).carets = a.carets ++ r.caret?.toList := by
  cases r with
  | type line t => rw [add, insertType]; split <;> simp [Record.caret?]
  | error line => rw [add, insertError]; split <;> simp [Record.caret?]
  | mistake m => simp [add, addMistake, Record.caret?]
  | caret c => rfl

theorem types_add (a : Assertions) (r : Record) (k : Nat) :
    (a.add r).types[k]? =
      match r.typeOn? k with
      | some t => if k ∈ a.types then none else some t
      | none => a.types[k]? := by
  cases r with
  | type line t =>
    rw [add, types_insertType]
    by_cases hk : line = k
    · subst hk; simp [Record.typeOn?]
    · simp [Record.typeOn?, hk]
  | error line => rw [add, insertError]; split <;> simp [Record.typeOn?]
  | mistake m => rfl
  | caret c => rfl

theorem mem_errorLines_add (a : Assertions) (r : Record) (k : Nat) :
    k ∈ (a.add r).errorLines ↔
      if r.isErrorOn k = true then k ∉ a.errorLines else k ∈ a.errorLines := by
  cases r with
  | type line t => rw [add, insertType]; split <;> simp [Record.isErrorOn]
  | error line =>
    rw [add, mem_errorLines_insertError]
    by_cases hk : line = k
    · subst hk; simp [Record.isErrorOn]
    · simp [Record.isErrorOn, hk]
  | mistake m => rfl
  | caret c => rfl

theorem mem_markDuplicate (a : Assertions) (k l : Nat) :
    l ∈ (a.markDuplicate k).duplicateLines ↔ l ∈ a.duplicateLines ∨ k = l := by
  by_cases hk : k ∈ a.duplicateLines
  · rw [markDuplicate, if_pos hk]
    constructor
    · exact Or.inl
    · rintro (h | rfl)
      · exact h
      · exact hk
  · rw [markDuplicate, if_neg hk]
    simp [eq_comm]

theorem mem_duplicateLines_add (a : Assertions) (r : Record) (k : Nat) :
    k ∈ (a.add r).duplicateLines ↔ k ∈ a.duplicateLines ∨
      ((r.typeOn? k).isSome = true ∧ k ∈ a.types) ∨
        (r.isErrorOn k = true ∧ k ∈ a.errorLines) := by
  cases r with
  | type line t =>
    rw [add, insertType]
    by_cases hl : line ∈ a.types <;> by_cases hk : line = k <;>
      simp_all [Record.typeOn?, Record.isErrorOn, mem_markDuplicate]
  | error line =>
    rw [add, insertError]
    by_cases hl : line ∈ a.errorLines <;> by_cases hk : line = k <;>
      simp_all [Record.typeOn?, Record.isErrorOn, mem_markDuplicate]
  | mistake m => simp [add, addMistake, Record.typeOn?, Record.isErrorOn]
  | caret c => simp [add, addCaret, Record.typeOn?, Record.isErrorOn]

theorem mistakes_foldl (a : Assertions) (rs : List Record) :
    (rs.foldl add a).mistakes = a.mistakes ++ rs.filterMap Record.mistake? := by
  induction rs generalizing a with
  | nil => simp
  | cons r rs ih =>
    rw [List.foldl_cons, ih, mistakes_add, List.append_assoc]
    cases h : r.mistake? <;> simp [h]

theorem carets_foldl (a : Assertions) (rs : List Record) :
    (rs.foldl add a).carets = a.carets ++ rs.filterMap Record.caret? := by
  induction rs generalizing a with
  | nil => simp
  | cons r rs ih =>
    rw [List.foldl_cons, ih, carets_add, List.append_assoc]
    cases h : r.caret? <;> simp [h]

theorem isSome_getLast?_odd {α : Type} (xs : List α) :
    (if xs.length % 2 = 1 then xs.getLast? else none).isSome = true ↔ xs.length % 2 = 1 := by
  split
  · rename_i hodd
    have hne : xs ≠ [] := by rintro rfl; simp at hodd
    simp [hodd, hne]
  · rename_i heven
    simp [heven]

/-- The type assertion of a line is the last one made, if an odd number was made. -/
theorem types_foldl (rs : List Record) (k : Nat) :
    (rs.foldl add {}).types[k]? =
      if (rs.filterMap (Record.typeOn? k)).length % 2 = 1 then
        (rs.filterMap (Record.typeOn? k)).getLast?
      else none := by
  induction rs using List.reverseRecOn with
  | nil => simp
  | append_singleton rs r ih =>
    have hmem : k ∈ (rs.foldl add {}).types ↔
        (rs.filterMap (Record.typeOn? k)).length % 2 = 1 := by
      rw [Std.ExtTreeMap.mem_iff_isSome_getElem?, ih, isSome_getLast?_odd]
    rw [List.foldl_append, List.filterMap_append, List.foldl_cons, List.foldl_nil, types_add]
    cases hr : r.typeOn? k with
    | none => simp [hr, ih]
    | some t =>
      simp only [hmem, List.filterMap_cons, List.filterMap_nil, hr, List.length_append,
        List.length_singleton, List.getLast?_concat]
      by_cases hodd : (rs.filterMap (Record.typeOn? k)).length % 2 = 1
      · rw [if_pos hodd, if_neg (by omega)]
      · rw [if_neg hodd, if_pos (by omega)]

theorem mem_types_foldl (rs : List Record) (k : Nat) :
    k ∈ (rs.foldl add {}).types ↔ (rs.filterMap (Record.typeOn? k)).length % 2 = 1 := by
  rw [Std.ExtTreeMap.mem_iff_isSome_getElem?, types_foldl, isSome_getLast?_odd]

theorem mem_errorLines_foldl (rs : List Record) (k : Nat) :
    k ∈ (rs.foldl add {}).errorLines ↔ rs.countP (Record.isErrorOn k) % 2 = 1 := by
  induction rs using List.reverseRecOn with
  | nil => simp
  | append_singleton rs r ih =>
    rw [List.foldl_append, List.foldl_cons, List.foldl_nil, mem_errorLines_add,
      List.countP_append, ih]
    cases hr : r.isErrorOn k <;> simp [hr]
    omega

/-- A line is a duplicate if two records of one sort were about it, and then for good. -/
theorem mem_duplicateLines_foldl (rs : List Record) (k : Nat) :
    k ∈ (rs.foldl add {}).duplicateLines ↔
      2 ≤ (rs.filterMap (Record.typeOn? k)).length ∨ 2 ≤ rs.countP (Record.isErrorOn k) := by
  induction rs using List.reverseRecOn with
  | nil => simp
  | append_singleton rs r ih =>
    rw [List.foldl_append, List.foldl_cons, List.foldl_nil, mem_duplicateLines_add, ih,
      mem_types_foldl, mem_errorLines_foldl, List.filterMap_append, List.countP_append]
    cases ht : r.typeOn? k <;> cases he : r.isErrorOn k <;>
      simp only [List.filterMap_cons, List.filterMap_nil, List.countP_cons, List.countP_nil, ht, he,
        List.append_nil, List.length_append, List.length_singleton, Option.isSome_none,
        Option.isSome_some, Bool.false_eq_true, if_true, if_false, true_and, false_and, or_false,
        false_or] <;>
      omega

end Assertions
end TypeComments
