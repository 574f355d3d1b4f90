import TypeComments.Proofs.Assertion.Records
import TypeComments.Proofs.Comment.Standing
import TypeComments.Proofs.Directive.Grammar

/-! What each comment adds to the assertions of a source: one record if its body is a directive, and
nothing otherwise. The bodies that are directives are told by their spelling, apart from the order
in which keywords and carets are looked for; no body can be spelled in two ways. -/

namespace TypeComments

namespace Record

def ofComment? (source : Text) (c : Comment) : Option Record :=
  (Directive.ofBody? c.body).map (ofDirective ((lines source).take c.line.number).getLast? c
    ((lines source).drop (c.line.number + 1)))

theorem ofComment?_of_lines {source : Text} {front below : List Line} {c : Comment}
    (h : lines source = front ++ c.line :: below) :
    ofComment? source c =
      (Directive.ofBody? c.body).map (ofDirective front.getLast? c below) := by
  have hnumber := number_of_lines_eq_append h
  have hfront : (lines source).take c.line.number = front := by
    rw [h, hnumber, List.take_left]
  have hbelow : (lines source).drop (c.line.number + 1) = below := by
    rw [h, hnumber, List.drop_append]
    simp
  rw [ofComment?, hfront, hbelow]

theorem ofLines_eq_filterMap {source : Text} {front ls : List Line} (h : lines source = front ++ ls) :
    ofLines front.getLast? ls = (ls.filterMap Comment.ofLine?).filterMap (ofComment? source) := by
  induction ls generalizing front with
  | nil => rfl
  | cons l below ih =>
    have hrest := @ih (front ++ [l]) (by simp [h])
    rw [List.getLast?_concat] at hrest
    rw [ofLines, hrest]
    cases hc : Comment.ofLine? l with
    | none => simp [hc]
    | some c =>
      obtain rfl := Comment.line_of_ofLine? hc
      rw [List.filterMap_cons_some hc, Option.bind_some, ← ofComment?_of_lines h]
      cases ho : ofComment? source c <;> simp [ho]

/-- The records of a source are those of its comments, in their order. -/
theorem ofSource_eq_filterMap (source : Text) :
    ofSource source = (Comment.all source).filterMap (ofComment? source) :=
  @ofLines_eq_filterMap source [] (lines source) rfl

end Record

/-- What a comment adds, by what is written in it. -/
inductive Comment.Contributes (source : Text) (c : Comment) : Option Record → Prop
  | nothing : (∀ d, ¬ Directive.Written c.body d) → Contributes source c none
  | type {expected : Text} : Directive.Written c.body (.expectType (some expected)) →
    Contributes source c (some (.type c.subject (.manual expected)))
  | missingType : Directive.Written c.body (.expectType none) →
    Contributes source c (some (.mistake ⟨.missingType, c.subject⟩))
  | snapshot {name : Text} : Directive.Written c.body (.expectTypeSnapshot (some name)) →
    Contributes source c (some (.type c.subject (.snapshot name none)))
  | missingName : Directive.Written c.body (.expectTypeSnapshot none) →
    Contributes source c (some (.mistake ⟨.missingSnapshotName, c.subject⟩))
  | error : Directive.Written c.body .expectError →
    Contributes source c (some (.error c.subject))
  | caret {indent : Nat} {rest : Text} {front below : List Line} :
    Directive.Written c.body (.caret indent rest) → (rest = [] ∨ rest.head? = some ' ') →
    lines source = front ++ c.line :: below →
    Contributes source c
      (some (.caret (CaretAssertion.ofComment front.getLast? c indent rest below)))
  | spacing {indent : Nat} {rest : Text} : Directive.Written c.body (.caret indent rest) →
    rest ≠ [] → rest.head? ≠ some ' ' →
    Contributes source c (some (.mistake ⟨.caretSpacing, c.subject⟩))

namespace Comment

theorem exists_lines_of_mem_all {source : Text} {c : Comment} (h : c ∈ all source) :
    ∃ front below, lines source = front ++ c.line :: below := by
  obtain ⟨l, hl, hc⟩ := mem_all.1 h
  obtain rfl := line_of_ofLine? hc
  exact List.append_of_mem hl

theorem contributes_ofDirective {source : Text} {front below : List Line} {c : Comment}
    (hlines : lines source = front ++ c.line :: below) {d : Directive}
    (hd : Directive.Written c.body d) :
    c.Contributes source (some (Record.ofDirective front.getLast? c below d)) := by
  rcases d with (_ | expected) | (_ | name) | _ | ⟨indent, rest⟩
  case expectType.none => exact .missingType hd
  case expectType.some => exact .type hd
  case expectTypeSnapshot.none => exact .missingName hd
  case expectTypeSnapshot.some => exact .snapshot hd
  case expectError => exact .error hd
  case caret =>
    rw [Record.ofDirective]
    split
    · rename_i hrest
      exact .caret hd hrest hlines
    · rename_i hrest
      rw [not_or] at hrest
      exact .spacing hd hrest.1 hrest.2

/-- A comment adds its record and nothing else. -/
theorem contributes_iff {source : Text} {c : Comment} (h : c ∈ all source) {o : Option Record} :
    c.Contributes source o ↔ Record.ofComment? source c = o := by
  obtain ⟨front, below, hlines⟩ := exists_lines_of_mem_all h
  rw [Record.ofComment?_of_lines hlines]
  constructor
  · intro hc
    cases hc with
    | nothing hno =>
      rw [Option.map_eq_none_iff, Option.eq_none_iff_forall_ne_some]
      intro d hd
      exact hno d (Directive.ofBody?_eq_some_iff.1 hd)
    | caret hd hrest hlines' =>
      have hlength := number_of_lines_eq_append hlines
      rw [number_of_lines_eq_append hlines'] at hlength
      obtain ⟨rfl, hbelow⟩ := List.append_inj (hlines.symm.trans hlines') hlength.symm
      obtain ⟨-, rfl⟩ := List.cons.inj hbelow
      rw [Directive.ofBody?_eq_some_iff.2 hd, Option.map_some, Record.ofDirective, if_pos hrest]
    | spacing hd hne hhead =>
      rw [Directive.ofBody?_eq_some_iff.2 hd, Option.map_some, Record.ofDirective,
        if_neg (not_or.2 ⟨hne, hhead⟩)]
    | type hd | missingType hd | snapshot hd | missingName hd | error hd =>
      rw [Directive.ofBody?_eq_some_iff.2 hd]
      rfl
  · rintro rfl
    cases hd : Directive.ofBody? c.body with
    | none =>
      refine .nothing fun d hwritten => ?_
      rw [Directive.ofBody?_eq_some_iff.2 hwritten] at hd
      cases hd
    | some d => exact contributes_ofDirective hlines (Directive.ofBody?_eq_some_iff.1 hd)

end Comment

inductive Comment.Asserts (c : Comment) : TypeAssertion → Prop
  | manual {expected : Text} : Directive.Written c.body (.expectType (some expected)) →
    c.Asserts (.manual expected)
  | snapshot {name : Text} : Directive.Written c.body (.expectTypeSnapshot (some name)) →
    c.Asserts (.snapshot name none)

def Comment.AssertsType (c : Comment) : Prop := ∃ t, c.Asserts t

def Comment.AsksError (c : Comment) : Prop := Directive.Written c.body .expectError

theorem countP_le_one_iff {α : Type} {p : α → Bool} {xs : List α} (h : xs.Nodup) :
    xs.countP p ≤ 1 ↔ ∀ x ∈ xs, ∀ y ∈ xs, p x = true → p y = true → x = y := by
  induction xs with
  | nil => simp
  | cons a xs ih =>
    obtain ⟨ha, hxs⟩ := List.nodup_cons.1 h
    by_cases hp : p a = true
    · have hzero : xs.countP p + 1 ≤ 1 ↔ ∀ x ∈ xs, ¬ p x = true := by
        rw [← List.countP_eq_zero]
        omega
      rw [List.countP_cons_of_pos hp, hzero]
      constructor
      · intro hno x hx y hy hpx hpy
        rcases List.mem_cons.1 hx with rfl | hx
        · rcases List.mem_cons.1 hy with rfl | hy
          · rfl
          · exact absurd hpy (hno y hy)
        · exact absurd hpx (hno x hx)
      · intro hone x hx hpx
        have hax := hone a (by simp) x (by simp [hx]) hp hpx
        exact ha (hax ▸ hx)
    · rw [List.countP_cons_of_neg hp, ih hxs]
      constructor
      · intro hone x hx y hy hpx hpy
        rcases List.mem_cons.1 hx with rfl | hx
        · exact absurd hpx hp
        · rcases List.mem_cons.1 hy with rfl | hy
          · exact absurd hpy hp
          · exact hone x hx y hy hpx hpy
      · intro hone x hx y hy
        exact hone x (by simp [hx]) y (by simp [hy])

namespace Record

variable {source : Text} {c : Comment} {k : Nat}

theorem ofComment?_eq_type_iff (h : c ∈ Comment.all source) {t : TypeAssertion} :
    ofComment? source c = some (type k t) ↔ c.subject = k ∧ c.Asserts t := by
  rw [← Comment.contributes_iff h]
  constructor
  · intro hc
    generalize ho : some (type k t) = o at hc
    cases hc with
    | type hd => cases ho; exact ⟨rfl, .manual hd⟩
    | snapshot hd => cases ho; exact ⟨rfl, .snapshot hd⟩
    | _ => cases ho
  · rintro ⟨rfl, hd⟩
    cases hd with
    | manual hd => exact .type hd
    | snapshot hd => exact .snapshot hd

theorem ofComment?_eq_error_iff (h : c ∈ Comment.all source) :
    ofComment? source c = some (error k) ↔ c.subject = k ∧ c.AsksError := by
  rw [← Comment.contributes_iff h]
  constructor
  · intro hc
    generalize ho : some (error k) = o at hc
    cases hc with
    | error hd => cases ho; exact ⟨rfl, hd⟩
    | _ => cases ho
  · rintro ⟨rfl, hd⟩
    exact .error hd

theorem any_typeOn?_ofComment? (h : c ∈ Comment.all source) :
    (ofComment? source c).any (fun r => (r.typeOn? k).isSome) = true ↔
      c.subject = k ∧ c.AssertsType := by
  rw [Option.any_eq_true, Comment.AssertsType, ← exists_and_left]
  simp only [Option.isSome_iff_exists, typeOn?_eq_some_iff, ← ofComment?_eq_type_iff h]
  constructor
  · rintro ⟨r, hr, t, rfl⟩
    exact ⟨t, hr⟩
  · rintro ⟨t, ht⟩
    exact ⟨_, ht, t, rfl⟩

theorem any_isErrorOn_ofComment? (h : c ∈ Comment.all source) :
    (ofComment? source c).any (isErrorOn k) = true ↔ c.subject = k ∧ c.AsksError := by
  rw [Option.any_eq_true, ← ofComment?_eq_error_iff h]
  simp only [isErrorOn_iff, exists_eq_right]

/-- Records of a sort can be counted comment by comment. -/
theorem countP_ofSource (source : Text) (p : Record → Bool) :
    (ofSource source).countP p =
      (Comment.all source).countP fun c => (ofComment? source c).any p := by
  rw [ofSource_eq_filterMap, List.countP_filterMap]
  congr 1
  funext c
  cases ofComment? source c <;> rfl

theorem countP_ofSource_le_one_iff {p : Record → Bool} {Asks : Comment → Prop}
    (h : ∀ c ∈ Comment.all source, (ofComment? source c).any p = true ↔ Asks c) :
    (ofSource source).countP p ≤ 1 ↔
      ∀ c ∈ Comment.all source, ∀ c' ∈ Comment.all source, Asks c → Asks c' → c = c' := by
  rw [countP_ofSource, countP_le_one_iff (Comment.all_nodup source)]
  constructor
  · intro hone c hc c' hc' ha ha'
    exact hone c hc c' hc' ((h c hc).2 ha) ((h c' hc').2 ha')
  · intro hone c hc c' hc' ha ha'
    exact hone c hc c' hc' ((h c hc).1 ha) ((h c' hc').1 ha')

end Record

namespace Directive

/-- What is read in the body of a comment, by its spelling. -/
structure ReadsGrammar (body : Text) : Prop where
  expects : ∀ d, expect? body = some d ↔ ∃ (k : Keyword) (s tail : Text),
    k.SpelledIn body s tail ∧ d = k.directive (argument tail)
  unique : ∀ (k k' : Keyword) (s s' tail tail' : Text), k.SpelledIn body s tail →
    k'.SpelledIn body s' tail' → k = k' ∧ s = s' ∧ tail = tail'
  carets : ∀ d, caret? body = some d ↔ ∃ indent rest,
    body = List.replicate indent ' ' ++ caretMark ++ rest ∧ d = .caret indent rest
  notBoth : ¬ ((expect? body).isSome = true ∧ (caret? body).isSome = true)
  written : ∀ d, Written body d ↔ expect? body = some d ∨ caret? body = some d

theorem readsGrammar (body : Text) : ReadsGrammar body := by
  constructor
  case expects => exact fun d => expect?_eq_some_iff
  case unique => exact fun k k' s s' tail tail' h h' => h.unique h'
  case carets => exact fun d => caret?_eq_some_iff
  case notBoth =>
    rintro ⟨hexpect, hcaret⟩
    obtain ⟨d, hd⟩ := Option.isSome_iff_exists.1 hcaret
    obtain ⟨indent, rest, rfl, -⟩ := caret?_eq_some_iff.1 hd
    rw [expect?_of_caret] at hexpect
    cases hexpect
  case written => exact fun d => written_iff

end Directive

/-- Directives are read by their spelling, and the assertions of a source are made from one record
of each comment that is a directive, by the order of the comments. -/
theorem Assertions.ofSource_contributed (source : Text) :
    (∀ body, Directive.ReadsGrammar body) ∧ Comment.Lists source (Comment.all source) ∧
    ∃ record : Comment → Option Record,
      ofSource source = ((Comment.all source).filterMap record).foldl add {} ∧
      ∀ c ∈ Comment.all source, ∀ o, record c = o ↔ c.Contributes source o := by
  refine ⟨Directive.readsGrammar, Comment.all_lists source, Record.ofComment? source, ?_, ?_⟩
  · rw [ofSource_eq_foldl, Record.ofSource_eq_filterMap]
  · intro c hc o
    exact (Comment.contributes_iff hc).symm

theorem Assertions.mixedComments_contributed :
    let source := ("f(); // $ExpectType  T \n// ^? U\n// $ExpectError\n" ++
      "g(); // $ExpectTypes T\nh(); //$ExpectTypeSnapshot\n// ^?V").toList
    (∃ record : Comment → Option Record,
      ofSource source = ((Comment.all source).filterMap record).foldl add {} ∧
      ∀ c ∈ Comment.all source, ∀ o, record c = o ↔ c.Contributes source o) ∧
    (ofSource source).types.toList = [(0, .manual ['T'])] ∧
    (ofSource source).errorLines.toList = [3] ∧
    (ofSource source).carets.map (fun c => (c.line, c.expected)) = [(1, ['U'])] ∧
    (ofSource source).mistakes = [⟨.missingSnapshotName, 4⟩, ⟨.caretSpacing, 6⟩] :=
  ⟨(ofSource_contributed _).2.2, by decide +kernel, by decide +kernel, by decide +kernel,
    by decide +kernel⟩

end TypeComments
