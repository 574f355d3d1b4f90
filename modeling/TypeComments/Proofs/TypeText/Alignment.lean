import TypeComments.Proofs.TypeText.Reading

/-! When texts that match up to read-only arrays are read alike. The walk along two texts counts the
arrays that it has opened and takes any `[]` for the end of one. Two matching texts are read alike
exactly if that is right each time, that is, if every `>` of the expected text ends an array just
when what it was matched with does. -/

namespace TypeComments
namespace TypeText

/-- What the walk along an actual and an expected text does at a point. -/
inductive Step
  | array
  | char (c : Char)
  | opened
  | closed
  deriving DecidableEq, Repr

namespace Step

def actualPieces : Step → List Piece
  | array => [.array]
  | char c => [.char c]
  | opened => qualifier.map .char
  | closed => [.char '[', .char ']']

def expectedPieces : Step → List Piece
  | array => [.array]
  | char c => [.char c]
  | opened => [.array]
  | closed => [.char '>']

end Step

def Aligns (steps : List Step) (actual expected : Text) : Prop :=
  steps.flatMap Step.actualPieces = pieces true actual ∧
    steps.flatMap Step.expectedPieces = pieces true expected

/-- Every `>` of the expected text is matched with its like: one that ends a read-only array with
`[]` or with a `>` that does so too, any other with a `>` that does not. The lists say for every
open `<` of either text whether it belongs to an array. -/
def endsPair : (actual expected : List Bool) → List Step → Bool
  | _, _, [] => true
  | a, e, .array :: steps => endsPair (true :: a) (true :: e) steps
  | a, e, .opened :: steps => endsPair a (true :: e) steps
  | a, e, .closed :: steps => e.headD false && endsPair a e.tail steps
  | a, e, .char c :: steps =>
    if c = '<' then endsPair (false :: a) (false :: e) steps
    else if c = '>' then a.headD false == e.headD false && endsPair a.tail e.tail steps
    else endsPair a e steps

theorem spell_qualifier (s : List Bool) (ps : List Piece) :
    spell s (qualifier.map .char ++ ps) = qualifier ++ spell s ps := rfl

/-- The spellings of two texts agree up to the first `>` that is not matched with its like. -/
theorem spell_eq_iff_endsPair (a e : List Bool) (steps : List Step) :
    spell a (steps.flatMap Step.actualPieces) = spell e (steps.flatMap Step.expectedPieces) ↔
      endsPair a e steps = true := by
  induction steps generalizing a e with
  | nil => simp [spell, endsPair]
  | cons step steps ih =>
    rw [List.flatMap_cons, List.flatMap_cons]
    cases step with
    | array =>
      simp only [Step.actualPieces, Step.expectedPieces, List.singleton_append, spell, endsPair]
      rw [List.append_right_inj, ih]
    | opened =>
      simp only [Step.actualPieces, Step.expectedPieces, List.singleton_append, spell_qualifier,
        spell, endsPair]
      rw [List.append_right_inj, ih]
    | closed =>
      simp only [Step.actualPieces, Step.expectedPieces, List.cons_append, List.nil_append, spell,
        endsPair, Bool.and_eq_true]
      rw [← ih]
      cases e.headD false <;> simp
    | char c =>
      simp only [Step.actualPieces, Step.expectedPieces, List.singleton_append, spell, endsPair]
      split
      · rw [List.cons_inj_right, ih]
      · split
        · rename_i hc
          rw [Bool.and_eq_true, beq_iff_eq, ← ih, hc]
          cases a.headD false <;> cases e.headD false <;> simp
        · rw [List.cons_inj_right, ih]

theorem eq_of_closing? {depth : Nat} {a e a' e' : Text}
    (h : closing? depth a e = some (a', e')) :
    depth ≠ 0 ∧ a = '[' :: ']' :: a' ∧ e = '>' :: e' := by
  unfold closing? at h
  split at h
  · cases h
  · rename_i hdepth
    obtain ⟨x, hx, hrest⟩ := Option.bind_eq_some_iff.1 h
    obtain ⟨y, hy, heq⟩ := Option.map_eq_some_iff.1 hrest
    obtain ⟨rfl, rfl⟩ := Prod.mk.inj heq
    exact ⟨hdepth, Text.strip?_eq_some_iff.1 hx, Text.strip?_eq_some_iff.1 hy⟩

theorem eq_of_opening? {p q : Option Char} {a e a' e' : Text}
    (h : opening? p q a e = some (a', e')) :
    wordCanStart p = true ∧ wordCanStart q = true ∧ a = qualifier ++ a' ∧
      ∃ opener ∈ openers, e = opener ++ e' := by
  unfold opening? at h
  split at h
  · rename_i hword
    rw [Bool.and_eq_true] at hword
    obtain ⟨x, hx, hrest⟩ := Option.bind_eq_some_iff.1 h
    obtain ⟨y, hy, heq⟩ := Option.map_eq_some_iff.1 hrest
    obtain ⟨rfl, rfl⟩ := Prod.mk.inj heq
    obtain ⟨opener, hopener, hstrip⟩ := List.exists_of_findSome?_eq_some hy
    exact ⟨hword.1, hword.2, Text.strip?_eq_some_iff.1 hx, opener, hopener,
      Text.strip?_eq_some_iff.1 hstrip⟩
  · cases h

/-- What the walk along two texts can do next. -/
theorem alignFrom_cases {depth : Nat} {p q : Option Char} {a e : Text}
    (h : alignFrom depth p q a e = true) :
    (a = [] ∧ e = [] ∧ depth = 0) ∨
    (∃ c a' e', a = c :: a' ∧ e = c :: e' ∧ alignFrom depth (some c) (some c) a' e' = true) ∨
    (∃ a' e', a = '[' :: ']' :: a' ∧ e = '>' :: e' ∧ depth ≠ 0 ∧
      alignFrom (depth - 1) (some ']') (some '>') a' e' = true) ∨
    ∃ opener ∈ openers, ∃ a' e', a = qualifier ++ a' ∧ e = opener ++ e' ∧
      wordCanStart p = true ∧ wordCanStart q = true ∧
      alignFrom (depth + 1) (some ' ') (some '<') a' e' = true := by
  cases a with
  | nil =>
    cases e with
    | nil => exact Or.inl ⟨rfl, rfl, by simpa [alignFrom] using h⟩
    | cons y e => simp [alignFrom] at h
  | cons x a =>
    cases e with
    | nil => simp [alignFrom] at h
    | cons y e =>
      rw [alignFrom] at h
      split at h
      · rename_i hxy
        subst hxy
        exact Or.inr (Or.inl ⟨x, a, e, rfl, rfl, h⟩)
      · split at h
        · rename_i a' e' hclose
          obtain ⟨hdepth, ha, he⟩ := eq_of_closing? hclose
          exact Or.inr (Or.inr (Or.inl ⟨a', e', ha, he, hdepth, h⟩))
        · split at h
          · rename_i a' e' hopen
            obtain ⟨hp, hq, ha, opener, hopener, he⟩ := eq_of_opening? hopen
            exact Or.inr (Or.inr (Or.inr ⟨opener, hopener, a', e', ha, he, hp, hq, h⟩))
          · cases h

theorem shared_of_actual {depth : Nat} {p c : Char} {q : Option Char} {a e : Text}
    (h : alignFrom depth (some p) q (c :: a) e = true) (hp : isWordChar p = true) (hc : c ≠ '[') :
    ∃ e', e = c :: e' ∧ alignFrom depth (some c) (some c) a e' = true := by
  rcases alignFrom_cases h with ⟨ha, -⟩ | ⟨_, _, e', ha, he, hnext⟩ | ⟨_, _, ha, -⟩ |
    ⟨_, -, _, _, -, -, hword, -⟩
  · cases ha
  · cases ha
    exact ⟨e', he, hnext⟩
  · cases ha
    exact absurd rfl hc
  · simp [wordCanStart, hp] at hword

theorem shared_of_expected {depth : Nat} {q c : Char} {p : Option Char} {a e : Text}
    (h : alignFrom depth p (some q) a (c :: e) = true) (hq : isWordChar q = true) (hc : c ≠ '>') :
    ∃ a', a = c :: a' ∧ alignFrom depth (some c) (some c) a' e = true := by
  rcases alignFrom_cases h with ⟨-, he, -⟩ | ⟨_, a', _, ha, he, hnext⟩ | ⟨_, _, -, he, -⟩ |
    ⟨_, -, _, _, -, -, -, hword, -⟩
  · cases he
  · cases he
    exact ⟨a', ha, hnext⟩
  · cases he
    exact absurd rfl hc
  · simp [wordCanStart, hq] at hword

theorem word_of_actual {depth : Nat} {p : Char} {q : Option Char} {w r e : Text}
    (h : alignFrom depth (some p) q (w ++ '<' :: r) e = true) (hp : isWordChar p = true)
    (hw : ∀ c ∈ w, isWordChar c = true) :
    ∃ r', e = w ++ '<' :: r' ∧ alignFrom depth (some '<') (some '<') r r' = true := by
  induction w generalizing p q e with
  | nil => exact shared_of_actual h hp (by decide)
  | cons c w ih =>
    have hc : isWordChar c = true := hw c (by simp)
    have hne : c ≠ '[' := by
      rintro rfl
      revert hc
      decide
    obtain ⟨e', rfl, hnext⟩ := shared_of_actual h hp hne
    obtain ⟨r', rfl, hrest⟩ := ih hnext hc fun x hx => hw x (by simp [hx])
    exact ⟨r', rfl, hrest⟩

theorem word_of_expected {depth : Nat} {q : Char} {p : Option Char} {w r a : Text}
    (h : alignFrom depth p (some q) a (w ++ '<' :: r) = true) (hq : isWordChar q = true)
    (hw : ∀ c ∈ w, isWordChar c = true) :
    ∃ r', a = w ++ '<' :: r' ∧ alignFrom depth (some '<') (some '<') r' r = true := by
  induction w generalizing q p a with
  | nil => exact shared_of_expected h hq (by decide)
  | cons c w ih =>
    have hc : isWordChar c = true := hw c (by simp)
    have hne : c ≠ '>' := by
      rintro rfl
      revert hc
      decide
    obtain ⟨a', rfl, hnext⟩ := shared_of_expected h hq hne
    obtain ⟨r', rfl, hrest⟩ := ih hnext hc fun x hx => hw x (by simp [hx])
    exact ⟨r', rfl, hrest⟩

theorem exists_word_of_opener {opener : Text} (h : opener ∈ openers) :
    ∃ w, (∀ c ∈ w, isWordChar c = true) ∧ ∀ t, opener ++ t = 'R' :: (w ++ '<' :: t) := by
  have hlong : "eadOnlyArrayOf".toList.all isWordChar = true := by decide
  have hshort : "eadonlyArray".toList.all isWordChar = true := by decide
  simp only [openers, List.mem_cons, List.not_mem_nil, or_false] at h
  rcases h with rfl | rfl
  · exact ⟨"eadOnlyArrayOf".toList, List.all_eq_true.1 hlong, fun _ => rfl⟩
  · exact ⟨"eadonlyArray".toList, List.all_eq_true.1 hshort, fun _ => rfl⟩

theorem arrayAt?_of_shared {depth : Nat} {c : Char} {a e : Text} (start : Bool)
    (h : alignFrom depth (some c) (some c) a e = true) :
    (∃ r r', arrayAt? start (c :: a) = some r ∧ arrayAt? start (c :: e) = some r' ∧
      alignFrom depth (some '<') (some '<') r r' = true) ∨
    (arrayAt? start (c :: a) = none ∧ arrayAt? start (c :: e) = none) := by
  have hR : isWordChar 'R' = true := by decide
  cases ha : arrayAt? start (c :: a) with
  | some r =>
    obtain ⟨rfl, opener, hopener, htext⟩ := exists_opener_of_arrayAt? ha
    obtain ⟨w, hw, hform⟩ := exists_word_of_opener hopener
    rw [hform] at htext
    obtain ⟨rfl, rfl⟩ := List.cons.inj htext
    obtain ⟨r', rfl, hrest⟩ := word_of_actual h hR hw
    exact Or.inl ⟨r, r', rfl, by rw [← hform, arrayAt?_opener hopener], hrest⟩
  | none =>
    cases he : arrayAt? start (c :: e) with
    | none => exact Or.inr ⟨rfl, rfl⟩
    | some r =>
      obtain ⟨rfl, opener, hopener, htext⟩ := exists_opener_of_arrayAt? he
      obtain ⟨w, hw, hform⟩ := exists_word_of_opener hopener
      rw [hform] at htext
      obtain ⟨rfl, rfl⟩ := List.cons.inj htext
      obtain ⟨r', rfl, -⟩ := word_of_expected h hR hw
      rw [← hform, arrayAt?_opener hopener] at ha
      cases ha

theorem pieces_word {u : Text} (hu : 'R' ∉ u) {d : Char} (hd : d ≠ 'R') (start : Bool)
    (t : Text) :
    pieces start (u ++ d :: t) = u.map .char ++ .char d :: pieces (!isWordChar d) t := by
  induction u generalizing start with
  | nil => exact pieces_of_none (arrayAt?_of_ne hd start t)
  | cons c u ih =>
    rw [List.mem_cons, not_or] at hu
    rw [List.cons_append, pieces_of_none (arrayAt?_of_ne (Ne.symm hu.1) start _), ih hu.2]
    rfl

theorem exists_steps {depth : Nat} {p q : Option Char} {a e : Text}
    (h : alignFrom depth p q a e = true) {start : Bool} (hp : wordCanStart p = start)
    (hq : wordCanStart q = start) :
    ∃ steps : List Step, steps.flatMap Step.actualPieces = pieces start a ∧
      steps.flatMap Step.expectedPieces = pieces start e := by
  induction hn : a.length using Nat.strongRecOn generalizing depth p q a e start with
  | ind n ih =>
    subst hn
    rcases alignFrom_cases h with ⟨rfl, rfl, -⟩ | ⟨c, a, e, rfl, rfl, hnext⟩ |
      ⟨a, e, rfl, rfl, -, hnext⟩ | ⟨opener, hopener, a, e, rfl, rfl, hp', -, hnext⟩
    · exact ⟨[], by rw [pieces]; rfl, by rw [pieces]; rfl⟩
    · rcases arrayAt?_of_shared start hnext with ⟨r, r', ha, he, hrest⟩ | ⟨ha, he⟩
      · obtain ⟨steps, hactual, hexpected⟩ := ih r.length (length_arrayAt? ha) hrest rfl rfl rfl
        refine ⟨.array :: steps, ?_, ?_⟩
        · rw [pieces_of_some ha, List.flatMap_cons, hactual]
          rfl
        · rw [pieces_of_some he, List.flatMap_cons, hexpected]
          rfl
      · obtain ⟨steps, hactual, hexpected⟩ := ih a.length (by simp) hnext rfl rfl rfl
        refine ⟨.char c :: steps, ?_, ?_⟩
        · rw [pieces_of_none ha, List.flatMap_cons, hactual]
          rfl
        · rw [pieces_of_none he, List.flatMap_cons, hexpected]
          rfl
    · obtain ⟨steps, hactual, hexpected⟩ := ih a.length
        (by rw [List.length_cons, List.length_cons]; omega) hnext rfl rfl rfl
      refine ⟨.closed :: steps, ?_, ?_⟩
      · rw [pieces_of_none (arrayAt?_of_ne (by decide) _ _),
          pieces_of_none (arrayAt?_of_ne (by decide) _ _), List.flatMap_cons, hactual]
        rfl
      · rw [pieces_of_none (arrayAt?_of_ne (by decide) _ _), List.flatMap_cons, hexpected]
        rfl
    · obtain rfl : start = true := hp.symm.trans hp'
      have hlength : a.length < (qualifier ++ a).length := by
        have hnine : qualifier.length = 9 := rfl
        rw [List.length_append, hnine]
        omega
      obtain ⟨steps, hactual, hexpected⟩ := ih a.length hlength hnext rfl rfl rfl
      refine ⟨.opened :: steps, ?_, ?_⟩
      · have hword : pieces true (qualifier ++ a) = qualifier.map .char ++ pieces true a :=
          pieces_word (u := "readonly".toList) (by decide) (by decide) true a
        rw [hword, List.flatMap_cons, hactual]
        rfl
      · rw [pieces_of_some (arrayAt?_opener hopener e), List.flatMap_cons, hexpected]
        rfl

/-- Balanced texts that match up to read-only arrays are read alike exactly if every `>` of the
expected one is matched with its like. -/
theorem read_eq_iff_endsPair {actual expected : Text} (ha : Balanced actual)
    (he : Balanced expected) (h : matchesReadonlyArray actual expected = true) :
    (∃ steps, Aligns steps actual expected) ∧
      ∀ steps, Aligns steps actual expected →
        (read actual = read expected ↔ endsPair [] [] steps = true) := by
  constructor
  · rw [matchesReadonlyArray, Bool.and_eq_true] at h
    exact exists_steps h.2 rfl rfl
  · rintro steps ⟨hactual, hexpected⟩
    rw [read_eq_spell ha, read_eq_spell he, ← hactual, ← hexpected, spell_eq_iff_endsPair]

theorem array_of_generic_read_alike :
    matchesReadonlyArray "Map<K, readonly Foo<X>[]>".toList
        "Map<K, ReadonlyArray<Foo<X>>>".toList = true ∧
      read "Map<K, readonly Foo<X>[]>".toList = read "Map<K, ReadonlyArray<Foo<X>>>".toList := by
  have hmatch : matchesReadonlyArray "Map<K, readonly Foo<X>[]>".toList
      "Map<K, ReadonlyArray<Foo<X>>>".toList = true := by decide +kernel
  have hiff := (read_eq_iff_endsPair (by decide) (by decide) hmatch).2
    ("Map<K, ".toList.map .char ++ .opened :: "Foo<X>".toList.map .char ++ [.closed, .char '>'])
    (by unfold Aligns; decide +kernel)
  exact ⟨hmatch, hiff.2 (by decide)⟩

/-- A `[]` inside a generic type is taken for the end of the array around it. -/
theorem array_inside_generic_matches :
    ¬ ∀ actual expected : Text, Balanced actual → Balanced expected →
      matchesReadonlyArray actual expected = true → read actual = read expected := by
  intro h
  have hread := h "readonly Foo<X[]>".toList "ReadonlyArray<Foo<X>>".toList (by decide) (by decide)
    (by decide +kernel)
  revert hread
  decide +kernel

end TypeText
end TypeComments
