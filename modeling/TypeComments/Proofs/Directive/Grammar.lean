import Mathlib.Data.List.TakeWhile
import TypeComments.Directive

/-! The written forms of directives. `Written` lists them one by one, with no order in which they
are tried; reading the body of a comment finds a directive exactly when the body is a written form
of it. -/

namespace TypeComments
namespace Directive

def MaySpace (s : Text) : Prop := s = [] ∨ s = [' ']

/-- What comes after a keyword: nothing, or a space and then anything. -/
def AfterWord (tail : Text) : Prop := tail = [] ∨ ∃ rest, tail = ' ' :: rest

def argument (tail : Text) : Option Text :=
  if Text.trim tail = [] then none else some (Text.trim tail)

inductive Written : (body : Text) → Directive → Prop
  | expectType {s tail : Text} : MaySpace s → AfterWord tail →
    Written (s ++ "$ExpectType".toList ++ tail) (.expectType (argument tail))
  | expectTypeSnapshot {s tail : Text} : MaySpace s → AfterWord tail →
    Written (s ++ "$ExpectTypeSnapshot".toList ++ tail) (.expectTypeSnapshot (argument tail))
  | expectError {s tail : Text} : MaySpace s → AfterWord tail →
    Written (s ++ "$ExpectError".toList ++ tail) .expectError
  | caret (indent : Nat) (rest : Text) :
    Written (List.replicate indent ' ' ++ "^?".toList ++ rest) (.caret indent rest)

theorem Written.eq_of_caret {body rest : Text} {indent : Nat}
    (h : Written body (.caret indent rest)) :
    body = List.replicate indent ' ' ++ "^?".toList ++ rest := by
  generalize hd : Directive.caret indent rest = d at h
  cases h with
  | caret => cases hd; rfl
  | _ => cases hd

inductive Keyword
  | type | typeSnapshot | error
  deriving DecidableEq, Repr

namespace Keyword

def word : Keyword → String
  | type => "Type"
  | typeSnapshot => "TypeSnapshot"
  | error => "Error"

def directive : Keyword → Option Text → Directive
  | type, argument => .expectType argument
  | typeSnapshot, argument => .expectTypeSnapshot argument
  | error, _ => .expectError

theorem eq_of_directive_eq {k k' : Keyword} {o o' : Option Text}
    (h : k.directive o = k'.directive o') : k = k' := by
  cases k <;> cases k' <;> simp_all [directive]

/-- `body` is `$Expect` and the keyword, between `s` and `tail`. -/
structure SpelledIn (k : Keyword) (body s tail : Text) : Prop where
  space : MaySpace s
  after : AfterWord tail
  body_eq : body = s ++ marker ++ k.word.toList ++ tail

theorem SpelledIn.written {k : Keyword} {body s tail : Text} (h : k.SpelledIn body s tail) :
    Written body (k.directive (argument tail)) := by
  obtain ⟨hs, htail, rfl⟩ := h
  rw [List.append_assoc s]
  cases k with
  | type => exact Written.expectType hs htail
  | typeSnapshot => exact Written.expectTypeSnapshot hs htail
  | error => exact Written.expectError hs htail

end Keyword

theorem dropSpace_append {s t : Text} (hs : MaySpace s) (ht : t.head? ≠ some ' ') :
    dropSpace (s ++ t) = t := by
  rcases hs with rfl | rfl
  · cases t with
    | nil => rfl
    | cons c t =>
      have hc : c ≠ ' ' := by simpa using ht
      simp [dropSpace, hc]
  · rfl

theorem eq_append_dropSpace (body : Text) : ∃ s, MaySpace s ∧ body = s ++ dropSpace body := by
  unfold dropSpace
  split
  · exact ⟨[' '], Or.inr rfl, rfl⟩
  · exact ⟨[], Or.inl rfl, rfl⟩

theorem trim_space_cons (t : Text) : Text.trim (' ' :: t) = Text.trim t := by
  have hblank : Text.isBlank ' ' = true := by decide
  simp [Text.trim, Text.trimStart, hblank]

theorem argument?_eq_some_iff {t : Text} {o : Option Text} :
    argument? t = some o ↔ AfterWord t ∧ o = argument t := by
  cases t with
  | nil =>
    have hafter : AfterWord [] := Or.inl rfl
    have hnone : argument [] = none := rfl
    simp only [argument?, Option.some.injEq, hafter, hnone, true_and]
    exact eq_comm
  | cons c t =>
    by_cases hc : c = ' '
    · subst hc
      have hafter : AfterWord (' ' :: t) := Or.inr ⟨t, rfl⟩
      simp only [argument?, argument, trim_space_cons, Option.some.injEq, hafter, true_and]
      exact eq_comm
    · simp [argument?, AfterWord, hc]

theorem keyword?_eq_some_iff {keyword t : Text} {build : Option Text → Directive}
    {d : Directive} :
    keyword? keyword build t = some d ↔
      ∃ tail, t = keyword ++ tail ∧ AfterWord tail ∧ d = build (argument tail) := by
  simp only [keyword?, Option.map_eq_some_iff, Option.bind_eq_some_iff, Text.strip?_eq_some_iff,
    argument?_eq_some_iff]
  constructor
  · rintro ⟨o, ⟨tail, ht, htail, rfl⟩, rfl⟩
    exact ⟨tail, ht, htail, rfl⟩
  · rintro ⟨tail, ht, htail, rfl⟩
    exact ⟨argument tail, ⟨tail, ht, htail, rfl⟩, rfl⟩

theorem keyword?_append {tail : Text} (h : AfterWord tail) (keyword : Text)
    (build : Option Text → Directive) :
    keyword? keyword build (keyword ++ tail) = some (build (argument tail)) :=
  keyword?_eq_some_iff.2 ⟨tail, rfl, h, rfl⟩

/-- `Type` is the beginning of `TypeSnapshot`, but not as a word of its own. -/
theorem keyword?_typeSnapshot_type {tail : Text} (h : AfterWord tail)
    (build : Option Text → Directive) :
    keyword? "TypeSnapshot".toList build ("Type".toList ++ tail) = none := by
  rcases h with rfl | ⟨rest, rfl⟩ <;> rfl

theorem expect?_append {s keyword tail : Text} (hs : MaySpace s) :
    expect? (s ++ (marker ++ keyword) ++ tail) =
      (keyword? "TypeSnapshot".toList expectTypeSnapshot (keyword ++ tail)).or
        ((keyword? "Type".toList expectType (keyword ++ tail)).or
          (keyword? "Error".toList (fun _ => expectError) (keyword ++ tail))) := by
  have hdrop : dropSpace (s ++ (marker ++ (keyword ++ tail))) = marker ++ (keyword ++ tail) := by
    apply dropSpace_append hs
    show some '$' ≠ some ' '
    decide
  rw [List.append_assoc, List.append_assoc, expect?, hdrop, Text.strip?_append, Option.bind_some]

theorem exists_spelledIn_of_expect? {body : Text} {d : Directive} (h : expect? body = some d) :
    ∃ (k : Keyword) (s tail : Text), k.SpelledIn body s tail ∧ d = k.directive (argument tail) := by
  obtain ⟨t, ht, h⟩ := Option.bind_eq_some_iff.1 h
  obtain ⟨s, hs, hbody⟩ := eq_append_dropSpace body
  rw [Text.strip?_eq_some_iff.1 ht, ← List.append_assoc] at hbody
  rw [Option.or_eq_some_iff, Option.or_eq_some_iff] at h
  rcases h with h | ⟨-, h | ⟨-, h⟩⟩
  all_goals
    obtain ⟨tail, rfl, htail, rfl⟩ := keyword?_eq_some_iff.1 h
    rw [← List.append_assoc] at hbody
  · exact ⟨.typeSnapshot, s, tail, ⟨hs, htail, hbody⟩, rfl⟩
  · exact ⟨.type, s, tail, ⟨hs, htail, hbody⟩, rfl⟩
  · exact ⟨.error, s, tail, ⟨hs, htail, hbody⟩, rfl⟩

theorem Keyword.SpelledIn.expect? {k : Keyword} {body s tail : Text}
    (h : k.SpelledIn body s tail) : expect? body = some (k.directive (argument tail)) := by
  obtain ⟨hs, htail, rfl⟩ := h
  rw [List.append_assoc s, expect?_append hs]
  cases k with
  | type =>
    rw [word, keyword?_typeSnapshot_type htail, Option.none_or, keyword?_append htail]
    rfl
  | typeSnapshot =>
    rw [word, keyword?_append htail]
    rfl
  | error =>
    have hno (keyword : Text) (build : Option Text → Directive) (h : keyword.head? = some 'T') :
        keyword? keyword build ("Error".toList ++ tail) = none := by
      cases keyword with
      | nil => simp at h
      | cons c keyword =>
        obtain rfl : c = 'T' := by simpa using h
        rfl
    rw [word, hno _ _ rfl, hno _ _ rfl, Option.none_or, Option.none_or, keyword?_append htail]
    rfl

/-- An `$Expect…` directive is found exactly in the bodies that spell a keyword. -/
theorem expect?_eq_some_iff {body : Text} {d : Directive} :
    expect? body = some d ↔ ∃ (k : Keyword) (s tail : Text),
      k.SpelledIn body s tail ∧ d = k.directive (argument tail) := by
  constructor
  · exact exists_spelledIn_of_expect?
  · rintro ⟨k, s, tail, h, rfl⟩
    exact h.expect?

theorem eq_of_maySpace {s s' t t' : Text} (hs : MaySpace s) (hs' : MaySpace s')
    (ht : t.head? ≠ some ' ') (ht' : t'.head? ≠ some ' ') (h : s ++ t = s' ++ t') :
    s = s' ∧ t = t' := by
  have htail : t = t' := by rw [← dropSpace_append hs ht, h, dropSpace_append hs' ht']
  subst htail
  exact ⟨List.append_cancel_right h, rfl⟩

theorem Keyword.SpelledIn.unique {k k' : Keyword} {body s s' tail tail' : Text}
    (h : k.SpelledIn body s tail) (h' : k'.SpelledIn body s' tail') :
    k = k' ∧ s = s' ∧ tail = tail' := by
  obtain rfl := eq_of_directive_eq (Option.some.inj (h.expect?.symm.trans h'.expect?))
  have hbody := h.body_eq.symm.trans h'.body_eq
  simp only [List.append_assoc] at hbody
  have hdollar (t : Text) : (marker ++ t).head? ≠ some ' ' := by
    show some '$' ≠ some ' '
    decide
  obtain ⟨hs, htext⟩ := eq_of_maySpace h.space h'.space (hdollar _) (hdollar _) hbody
  exact ⟨rfl, hs, List.append_cancel_left (List.append_cancel_left htext)⟩

theorem expect?_of_caret (indent : Nat) (rest : Text) :
    expect? (List.replicate indent ' ' ++ caretMark ++ rest) = none := by
  rcases indent with _ | _ | n <;> rfl

theorem takeWhile_space (body : Text) :
    body.takeWhile (· = ' ') = List.replicate (body.takeWhile (· = ' ')).length ' ' := by
  rw [List.eq_replicate_iff]
  refine ⟨rfl, fun c hc => ?_⟩
  simpa using List.mem_takeWhile_imp hc

theorem caret?_eq_some_iff {body : Text} {d : Directive} :
    caret? body = some d ↔ ∃ indent rest,
      body = List.replicate indent ' ' ++ caretMark ++ rest ∧ d = .caret indent rest := by
  constructor
  · intro h
    obtain ⟨rest, hrest, rfl⟩ := Option.map_eq_some_iff.1 h
    refine ⟨(body.takeWhile (· = ' ')).length, rest, ?_, rfl⟩
    calc body = body.takeWhile (· = ' ') ++ body.dropWhile (· = ' ') :=
          List.takeWhile_append_dropWhile.symm
      _ = _ := by rw [Text.strip?_eq_some_iff.1 hrest, ← takeWhile_space, List.append_assoc]
  · rintro ⟨indent, rest, rfl, rfl⟩
    have htake : (List.replicate indent ' ' ++ (caretMark ++ rest)).takeWhile (· = ' ') =
        List.replicate indent ' ' := by
      rw [List.takeWhile_append_of_pos (by simp)]
      simp [caretMark]
    have hdrop : (List.replicate indent ' ' ++ (caretMark ++ rest)).dropWhile (· = ' ') =
        caretMark ++ rest := by
      rw [List.dropWhile_append_of_pos (by simp)]
      simp [caretMark]
    rw [List.append_assoc, caret?, htake, hdrop, Text.strip?_append, List.length_replicate]
    rfl

theorem written_iff {body : Text} {d : Directive} :
    Written body d ↔ expect? body = some d ∨ caret? body = some d := by
  rw [expect?_eq_some_iff, caret?_eq_some_iff]
  constructor
  · intro h
    cases h with
    | @expectType s tail hs htail =>
      exact Or.inl ⟨.type, s, tail, ⟨hs, htail, by rw [List.append_assoc s marker]; rfl⟩, rfl⟩
    | @expectTypeSnapshot s tail hs htail =>
      exact Or.inl ⟨.typeSnapshot, s, tail, ⟨hs, htail, by rw [List.append_assoc s marker]; rfl⟩, rfl⟩
    | @expectError s tail hs htail =>
      exact Or.inl ⟨.error, s, tail, ⟨hs, htail, by rw [List.append_assoc s marker]; rfl⟩, rfl⟩
    | caret indent rest => exact Or.inr ⟨indent, rest, rfl, rfl⟩
  · rintro (⟨k, s, tail, h, rfl⟩ | ⟨indent, rest, rfl, rfl⟩)
    · exact h.written
    · exact Written.caret indent rest

/-- Reading a body finds a directive exactly if the body is a written form of it. -/
theorem ofBody?_eq_some_iff {body : Text} {d : Directive} :
    ofBody? body = some d ↔ Written body d := by
  rw [written_iff, ofBody?, Option.or_eq_some_iff]
  constructor
  · rintro (h | ⟨-, h⟩)
    · exact Or.inl h
    · exact Or.inr h
  · rintro (h | h)
    · exact Or.inl h
    · obtain ⟨indent, rest, rfl, -⟩ := caret?_eq_some_iff.1 h
      exact Or.inr ⟨expect?_of_caret indent rest, h⟩

theorem Written.mayOccur {body : Text} {d : Directive} (h : Written body d) :
    mayOccur body = true := by
  have hmark (s keyword tail : Text) :
      ∃ a b, s ++ (marker ++ keyword) ++ tail = a ++ marker ++ b :=
    ⟨s, keyword ++ tail, by simp only [List.append_assoc]⟩
  rw [Directive.mayOccur, Bool.or_eq_true, Text.holds_iff, Text.holds_iff]
  cases h with
  | expectType => exact Or.inl (hmark _ "Type".toList _)
  | expectTypeSnapshot => exact Or.inl (hmark _ "TypeSnapshot".toList _)
  | expectError => exact Or.inl (hmark _ "Error".toList _)
  | caret indent rest => exact Or.inr ⟨List.replicate indent ' ', rest, rfl⟩

end Directive
end TypeComments
