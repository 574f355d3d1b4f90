import Mathlib.Data.List.Perm.Subperm
import TypeComments.Proofs.Assertion.Contributions
import TypeComments.Proofs.CaretBlock

/-! One assertion of a sort for each line. A line is spoken of by its own comment and by the one
above it, so that two claims of a sort can meet on a line and a third cannot bring them back. Lines
are marked as duplicates in ascending order: above a line, nothing is said of the lines below it,
and so the second of two claims that meet on a line stands on the line itself. -/

namespace TypeComments

namespace Comment

theorem number_of_subject {c : Comment} {k : Nat} (h : c.subject = k) :
    c.line.number = k ∨ c.line.number + 1 = k := by
  rw [subject] at h
  split at h
  · exact Or.inr h
  · exact Or.inl h

/-- At most two comments speak of a line: its own and the one above it. -/
theorem countP_subject_le_two (source : Text) (k : Nat) :
    (all source).countP (fun c => c.subject = k) ≤ 2 := by
  have hnumbers : (((all source).filter fun c => c.subject = k).map fun c => c.line.number).Nodup :=
    List.pairwise_map.2 (((all_pairwise_number source).filter _).imp Nat.ne_of_lt)
  have hsubset : ((all source).filter fun c => c.subject = k).map (fun c => c.line.number) ⊆
      [k, k - 1] := by
    intro n hn
    obtain ⟨c, hc, rfl⟩ := List.mem_map.1 hn
    have hsubject : c.subject = k := by simpa using (List.mem_filter.1 hc).2
    rcases number_of_subject hsubject with h | h
    · simp [h]
    · simp [← h]
  have hlength := (hnumbers.subperm hsubset).length_le
  rwa [List.length_map, ← List.countP_eq_length_filter] at hlength

/-- `c` is the only comment about line `k` that asks for something. -/
def IsOnly (source : Text) (k : Nat) (Asks : Comment → Prop) (c : Comment) : Prop :=
  (c ∈ all source ∧ c.subject = k ∧ Asks c) ∧
    ∀ c' ∈ all source, c'.subject = k → Asks c' → c' = c

def TwoAsk (source : Text) (k : Nat) (Asks : Comment → Prop) : Prop :=
  ∃ c ∈ all source, ∃ c' ∈ all source, c ≠ c' ∧ c.subject = k ∧ c'.subject = k ∧ Asks c ∧ Asks c'

end Comment

section Asking

variable {source : Text} {k : Nat} {p : Record → Bool} {Asks : Comment → Prop}
  (h : ∀ c ∈ Comment.all source,
    (Record.ofComment? source c).any p = true ↔ c.subject = k ∧ Asks c)

include h

theorem Record.countP_ofSource_le_two : (ofSource source).countP p ≤ 2 := by
  rw [countP_ofSource]
  refine Nat.le_trans (List.countP_mono_left ?_) (Comment.countP_subject_le_two source k)
  intro c hc hany
  exact decide_eq_true ((h c hc).1 hany).1

theorem Record.countP_ofSource_pos_iff :
    0 < (ofSource source).countP p ↔ ∃ c ∈ Comment.all source, c.subject = k ∧ Asks c := by
  rw [countP_ofSource, List.countP_pos_iff]
  exact exists_congr fun c => and_congr_right (h c)

theorem Comment.twoAsk_iff :
    TwoAsk source k Asks ↔ 2 ≤ (Record.ofSource source).countP p := by
  rw [← Nat.lt_iff_add_one_le, ← Nat.not_le, Record.countP_ofSource_le_one_iff h]
  constructor
  · rintro ⟨c, hc, c', hc', hne, hk, hk', ha, ha'⟩ hone
    exact hne (hone c hc c' hc' ⟨hk, ha⟩ ⟨hk', ha'⟩)
  · intro hnot
    push Not at hnot
    obtain ⟨c, hc, c', hc', ⟨hk, ha⟩, ⟨hk', ha'⟩, hne⟩ := hnot
    exact ⟨c, hc, c', hc', hne, hk, hk', ha, ha'⟩

theorem Comment.isOnly_iff {c : Comment} (hc : c ∈ all source) (hk : c.subject = k) (ha : Asks c) :
    IsOnly source k Asks c ↔ (Record.ofSource source).countP p % 2 = 1 := by
  have hle := Record.countP_ofSource_le_two h
  have hpos := (Record.countP_ofSource_pos_iff h).2 ⟨c, hc, hk, ha⟩
  have hodd : (Record.ofSource source).countP p % 2 = 1 ↔
      (Record.ofSource source).countP p ≤ 1 := by
    omega
  rw [hodd, Record.countP_ofSource_le_one_iff h]
  constructor
  · rintro ⟨-, honly⟩ c₁ hc₁ c₂ hc₂ ⟨hk₁, ha₁⟩ ⟨hk₂, ha₂⟩
    rw [honly c₁ hc₁ hk₁ ha₁, honly c₂ hc₂ hk₂ ha₂]
  · intro hone
    exact ⟨⟨hc, hk, ha⟩, fun c' hc' hk' ha' => hone c' hc' c hc ⟨hk', ha'⟩ ⟨hk, ha⟩⟩

end Asking

namespace Record

def claims (k : Nat) (r : Record) : Bool := (r.typeOn? k).isSome || r.isErrorOn k

theorem any_claims_ofComment? {source : Text} {c : Comment} {k : Nat}
    (h : c ∈ Comment.all source) :
    (ofComment? source c).any (claims k) = true ↔
      c.subject = k ∧ (c.AssertsType ∨ c.AsksError) := by
  rw [and_or_left, ← any_typeOn?_ofComment? h, ← any_isErrorOn_ofComment? h]
  cases ofComment? source c <;> simp [claims]

theorem countP_claims (rs : List Record) (k : Nat) :
    rs.countP (claims k) =
      rs.countP (fun r => (r.typeOn? k).isSome) + rs.countP (isErrorOn k) := by
  induction rs with
  | nil => rfl
  | cons r rs ih =>
    have hr : (if r.claims k = true then 1 else 0) =
        (if (r.typeOn? k).isSome = true then 1 else 0) + if r.isErrorOn k = true then 1 else 0 := by
      cases r <;> simp [claims, typeOn?, isErrorOn]
    rw [List.countP_cons, List.countP_cons, List.countP_cons, ih, hr]
    omega

theorem countP_claims_le_two (source : Text) (k : Nat) : (ofSource source).countP (claims k) ≤ 2 :=
  countP_ofSource_le_two fun _ hc => any_claims_ofComment? hc

theorem mem_typeOn?_ofSource {source : Text} {k : Nat} {t : TypeAssertion} :
    t ∈ (ofSource source).filterMap (typeOn? k) ↔
      ∃ c ∈ Comment.all source, c.subject = k ∧ c.Asserts t := by
  rw [mem_filterMap_typeOn?, ofSource_eq_filterMap, List.mem_filterMap]
  exact exists_congr fun c => and_congr_right fun hc => ofComment?_eq_type_iff hc

/-- The line that a record is about; carets are about an offset. -/
def line? : Record → Option Nat
  | type line _ => some line
  | error line => some line
  | mistake m => some m.line
  | caret _ => none

theorem line?_ofDirective {above : Option Line} {c : Comment} {below : List Line}
    {d : Directive} {k : Nat} (h : (ofDirective above c below d).line? = some k) :
    c.subject = k := by
  rcases d with (_ | expected) | (_ | name) | _ | ⟨indent, rest⟩
  case caret =>
    rw [ofDirective] at h
    split at h
    · cases h
    · exact Option.some.inj h
  all_goals exact Option.some.inj h

end Record

namespace Assertions

/-- What the lines above line `k` can assert: nothing on a line below it, and no line from it on is
a duplicate yet. -/
structure UpTo (a : Assertions) (k : Nat) : Prop where
  types : ∀ l ∈ a.types, l ≤ k
  errors : ∀ l ∈ a.errorLines, l ≤ k
  mistakes : ∀ m ∈ a.mistakes, m.line ≤ k
  mistakes_pairwise : a.mistakes.Pairwise fun m m' => m.line ≤ m'.line
  duplicates : ∀ l ∈ a.duplicateLines, l < k
  duplicates_pairwise : a.duplicateLines.Pairwise (· < ·)

theorem upTo_empty (k : Nat) : ({} : Assertions).UpTo k := by
  constructor <;> simp

theorem mem_types_of_add {a : Assertions} {r : Record} {l : Nat} (h : l ∈ (a.add r).types) :
    l ∈ a.types ∨ r.line? = some l := by
  rw [Std.ExtTreeMap.mem_iff_isSome_getElem?, types_add] at h
  cases hr : r.typeOn? l with
  | none =>
    rw [hr] at h
    exact Or.inl (Std.ExtTreeMap.mem_iff_isSome_getElem?.2 h)
  | some t =>
    obtain rfl := Record.typeOn?_eq_some_iff.1 hr
    exact Or.inr rfl

theorem mem_errorLines_of_add {a : Assertions} {r : Record} {l : Nat} (h : l ∈ (a.add r).errorLines) :
    l ∈ a.errorLines ∨ r.line? = some l := by
  rw [mem_errorLines_add] at h
  split at h
  · rename_i hr
    obtain rfl := Record.isErrorOn_iff.1 hr
    exact Or.inr rfl
  · exact Or.inl h

theorem duplicateLines_add (a : Assertions) (r : Record) :
    (a.add r).duplicateLines = a.duplicateLines ∨
      ∃ k, r.line? = some k ∧ (k ∈ a.types ∨ k ∈ a.errorLines) ∧ k ∉ a.duplicateLines ∧
        (a.add r).duplicateLines = a.duplicateLines ++ [k] := by
  have hmark (a : Assertions) (k : Nat) : (a.markDuplicate k).duplicateLines = a.duplicateLines ∨
      k ∉ a.duplicateLines ∧ (a.markDuplicate k).duplicateLines = a.duplicateLines ++ [k] := by
    unfold markDuplicate
    split
    · exact Or.inl rfl
    · rename_i hk
      exact Or.inr ⟨hk, rfl⟩
  cases r with
  | type line t =>
    rw [add, insertType]
    split
    · rename_i hline
      exact (hmark _ line).imp_right fun h => ⟨line, rfl, Or.inl hline, h⟩
    · exact Or.inl rfl
  | error line =>
    rw [add, insertError]
    split
    · rename_i hline
      exact (hmark _ line).imp_right fun h => ⟨line, rfl, Or.inr hline, h⟩
    · exact Or.inl rfl
  | mistake m => exact Or.inl rfl
  | caret c => exact Or.inl rfl

namespace UpTo

variable {a : Assertions} {k : Nat}

/-- A record of line `k` is about that line or the next. It can meet a claim on line `k` only, and
every duplicate so far is above. -/
theorem add (h : a.UpTo k) {r : Record} (hr : ∀ l, r.line? = some l → l = k ∨ l = k + 1) :
    (a.add r).UpTo (k + 1) := by
  have hle {l : Nat} (hl : l ≤ k ∨ r.line? = some l) : l ≤ k + 1 := by
    rcases hl with hl | hl
    · omega
    · rcases hr l hl with rfl | rfl <;> omega
  have hmistake {m : MistakeAt} (hm : m ∈ r.mistake?.toList) : r.line? = some m.line := by
    cases r <;> simp_all [Record.mistake?, Record.line?]
  constructor
  case types => exact fun l hl => hle ((mem_types_of_add hl).imp_left (h.types l))
  case errors => exact fun l hl => hle ((mem_errorLines_of_add hl).imp_left (h.errors l))
  case mistakes =>
    intro m hm
    rw [mistakes_add, List.mem_append] at hm
    exact hle (hm.imp (h.mistakes m) hmistake)
  case mistakes_pairwise =>
    rw [mistakes_add, List.pairwise_append]
    refine ⟨h.mistakes_pairwise, by cases r.mistake? <;> simp, ?_⟩
    intro m hm m' hm'
    have := h.mistakes m hm
    rcases hr _ (hmistake hm') with hk | hk <;> omega
  case duplicates =>
    intro l hl
    rcases duplicateLines_add a r with hsame | ⟨k', -, hon, -, hmore⟩
    · rw [hsame] at hl
      exact Nat.lt_succ_of_lt (h.duplicates l hl)
    · rw [hmore, List.mem_append, List.mem_singleton] at hl
      rcases hl with hl | rfl
      · exact Nat.lt_succ_of_lt (h.duplicates l hl)
      · exact Nat.lt_succ_of_le (hon.elim (h.types l) (h.errors l))
  case duplicates_pairwise =>
    rcases duplicateLines_add a r with hsame | ⟨k', hk', hon, -, hmore⟩
    · rw [hsame]
      exact h.duplicates_pairwise
    · have hle' : k' ≤ k := hon.elim (h.types k') (h.errors k')
      rw [hmore, List.pairwise_append]
      refine ⟨h.duplicates_pairwise, List.pairwise_singleton _ _, ?_⟩
      intro l hl l' hl'
      obtain rfl := List.mem_singleton.1 hl'
      have := h.duplicates l hl
      rcases hr l' hk' with rfl | rfl <;> omega

theorem succ (h : a.UpTo k) : a.UpTo (k + 1) where
  types l hl := Nat.le_succ_of_le (h.types l hl)
  errors l hl := Nat.le_succ_of_le (h.errors l hl)
  mistakes m hm := Nat.le_succ_of_le (h.mistakes m hm)
  mistakes_pairwise := h.mistakes_pairwise
  duplicates l hl := Nat.lt_succ_of_lt (h.duplicates l hl)
  duplicates_pairwise := h.duplicates_pairwise

theorem addLine (above : Option Line) {l : Line} (h : a.UpTo l.number) (below : List Line) :
    (a.addLine above l below).UpTo (l.number + 1) := by
  unfold Assertions.addLine
  split
  · exact h.succ
  · rename_i c hc
    obtain rfl := Comment.line_of_ofLine? hc
    split
    · exact h.succ
    · rw [addDirective_eq_add]
      apply h.add
      intro k hk
      rcases Comment.number_of_subject (Record.line?_ofDirective hk) with hnumber | hnumber
      · exact Or.inl hnumber.symm
      · exact Or.inr hnumber.symm

theorem addLines (h : a.UpTo k) (above : Option Line) {ls : List Line} (hls : Consecutive k ls) :
    (a.addLines above ls).UpTo (k + ls.length) := by
  induction ls generalizing a above k with
  | nil => exact h
  | cons l below ih =>
    obtain ⟨rfl, -, hbelow⟩ := hls
    rw [Assertions.addLines, List.length_cons, Nat.add_comm below.length, ← Nat.add_assoc]
    exact ih (h.addLine above below) (some l) hbelow

end UpTo

theorem upTo_ofSource (source : Text) : (ofSource source).UpTo (lines source).length := by
  have h := (upTo_empty 0).addLines none (consecutive_linesFrom 0 0 source)
  rwa [Nat.zero_add] at h

/-- The assertions that a source leaves on each line, told by the comments about that line. -/
structure OnePerLine (source : Text) (a : Assertions) : Prop where
  comments : Comment.Lists source (Comment.all source)
  types : ∀ k t, a.types[k]? = some t ↔
    ∃ c, Comment.IsOnly source k Comment.AssertsType c ∧ c.Asserts t
  errors : ∀ k, k ∈ a.errorLines ↔ ∃ c, Comment.IsOnly source k Comment.AsksError c
  duplicates : ∀ k, k ∈ a.duplicateLines ↔
    Comment.TwoAsk source k Comment.AssertsType ∨ Comment.TwoAsk source k Comment.AsksError
  noThird : ∀ k, (Comment.all source).countP (fun c => c.subject = k) ≤ 2
  ascending : a.duplicateLines.Pairwise (· < ·)
  dropped : ∀ k ∈ a.duplicateLines, k ∉ a.types ∧ k ∉ a.errorLines
  mistakes : a.mistakes.Pairwise fun m m' => m.line ≤ m'.line
  carets : a.carets.Pairwise fun c c' => c.line < c'.line

/-- A line has the type assertion of the only comment that makes one. -/
theorem types_ofSource {source : Text} {k : Nat} {t : TypeAssertion} :
    (ofSource source).types[k]? = some t ↔
      ∃ c, Comment.IsOnly source k Comment.AssertsType c ∧ c.Asserts t := by
  have hsort (c : Comment) (hc : c ∈ Comment.all source) :=
    Record.any_typeOn?_ofComment? (k := k) hc
  have hle := Record.countP_ofSource_le_two hsort
  rw [ofSource_eq_foldl, types_foldl, List.length_filterMap_eq_countP]
  constructor
  · intro h
    split at h
    · rename_i hodd
      obtain ⟨c, hc, hk, ht⟩ := Record.mem_typeOn?_ofSource.1 (List.mem_of_getLast? h)
      exact ⟨c, (Comment.isOnly_iff hsort hc hk ⟨t, ht⟩).2 hodd, ht⟩
    · cases h
  · rintro ⟨c, honly, ht⟩
    obtain ⟨hc, hk, ha⟩ := honly.1
    have hodd := (Comment.isOnly_iff hsort hc hk ha).1 honly
    have hone : ((Record.ofSource source).filterMap (Record.typeOn? k)).length = 1 := by
      rw [List.length_filterMap_eq_countP]
      omega
    obtain ⟨t', ht'⟩ := List.length_eq_one_iff.1 hone
    have hmem := Record.mem_typeOn?_ofSource.2 ⟨c, hc, hk, ht⟩
    rw [ht', List.mem_singleton] at hmem
    rw [if_pos hodd, ht', hmem, List.getLast?_singleton]

theorem mem_errorLines_ofSource {source : Text} {k : Nat} :
    k ∈ (ofSource source).errorLines ↔ ∃ c, Comment.IsOnly source k Comment.AsksError c := by
  have hsort (c : Comment) (hc : c ∈ Comment.all source) :=
    Record.any_isErrorOn_ofComment? (k := k) hc
  rw [ofSource_eq_foldl, mem_errorLines_foldl]
  constructor
  · intro hodd
    obtain ⟨c, hc, hk, ha⟩ := (Record.countP_ofSource_pos_iff hsort).1 (by omega)
    exact ⟨c, (Comment.isOnly_iff hsort hc hk ha).2 hodd⟩
  · rintro ⟨c, honly⟩
    obtain ⟨hc, hk, ha⟩ := honly.1
    exact (Comment.isOnly_iff hsort hc hk ha).1 honly

theorem mem_duplicateLines_ofSource {source : Text} {k : Nat} :
    k ∈ (ofSource source).duplicateLines ↔
      Comment.TwoAsk source k Comment.AssertsType ∨ Comment.TwoAsk source k Comment.AsksError := by
  rw [ofSource_eq_foldl, mem_duplicateLines_foldl, List.length_filterMap_eq_countP,
    Comment.twoAsk_iff fun c hc => Record.any_typeOn?_ofComment? hc,
    Comment.twoAsk_iff fun c hc => Record.any_isErrorOn_ofComment? hc]

theorem not_mem_of_mem_duplicateLines {source : Text} {k : Nat}
    (h : k ∈ (ofSource source).duplicateLines) :
    k ∉ (ofSource source).types ∧ k ∉ (ofSource source).errorLines := by
  have hle := Record.countP_claims_le_two source k
  rw [Record.countP_claims] at hle
  rw [ofSource_eq_foldl] at h ⊢
  rw [mem_duplicateLines_foldl, List.length_filterMap_eq_countP] at h
  rw [mem_types_foldl, mem_errorLines_foldl, List.length_filterMap_eq_countP]
  omega

/-- After the last line, each line has at most one assertion of a sort: that of the only comment
that makes one. The lines with two are listed from top to bottom. -/
theorem ofSource_onePerLine (source : Text) : (ofSource source).OnePerLine source where
  comments := Comment.all_lists source
  types _ _ := types_ofSource
  errors _ := mem_errorLines_ofSource
  duplicates _ := mem_duplicateLines_ofSource
  noThird := Comment.countP_subject_le_two source
  ascending := (upTo_ofSource source).duplicates_pairwise
  dropped _ := not_mem_of_mem_duplicateLines
  mistakes := (upTo_ofSource source).mistakes_pairwise
  carets := carets_pairwise_line source

theorem sharedLines_onePerLine :
    let source := ("// $ExpectType A\nf(); // $ExpectType B\n" ++
      "// $ExpectError\ng(); // $ExpectTypeSnapshot C").toList
    (ofSource source).OnePerLine source ∧
      (ofSource source).types.toList = [(3, .snapshot ['C'] none)] ∧
      (ofSource source).errorLines.toList = [3] ∧ (ofSource source).duplicateLines = [1] :=
  ⟨ofSource_onePerLine _, by decide +kernel, by decide +kernel, by decide +kernel⟩

end Assertions
end TypeComments
