import Mathlib.Data.List.Basic
import TypeComments.Proofs.Lines
import TypeComments.TypeText.ReadonlyArray

/-! Type texts with every read-only array spelled `readonly T[]`. `read` looks for the `>` that
balances the `<` of an array and rewrites the array as a whole; `spell` goes once from left to right
and keeps, for every `<` that is open, whether it belongs to an array. On balanced texts the two
agree. -/

namespace TypeComments
namespace TypeText

def arrayAt? (start : Bool) (t : Text) : Option Text :=
  if start then openers.findSome? (Text.strip? · t) else none

/-- The number of open `<` after a text, if it starts with `n` of them and every `>` closes one. -/
def level : Nat → Text → Option Nat
  | n, [] => some n
  | n, c :: t =>
    if c = '<' then level (n + 1) t
    else if c = '>' then (if n = 0 then none else level (n - 1) t)
    else level n t

def Balanced (t : Text) : Prop := level 0 t = some 0

instance (t : Text) : Decidable (Balanced t) := inferInstanceAs (Decidable (level 0 t = some 0))

/-- What stands before and after the `>` that balances a `<` right before the text, with `n` more
`<` open. -/
def untilEnd? : Nat → Text → Option (Text × Text)
  | _, [] => none
  | n, c :: t =>
    if c = '>' ∧ n = 0 then some ([], t)
    else
      (untilEnd? (if c = '<' then n + 1 else if c = '>' then n - 1 else n) t).map
        fun p => (c :: p.1, p.2)

theorem exists_opener_of_arrayAt? {start : Bool} {t rest : Text} (h : arrayAt? start t = some rest) :
    start = true ∧ ∃ opener ∈ openers, t = opener ++ rest := by
  unfold arrayAt? at h
  split at h
  · rename_i hstart
    obtain ⟨opener, hopener, hstrip⟩ := List.exists_of_findSome?_eq_some h
    exact ⟨hstart, opener, hopener, Text.strip?_eq_some_iff.1 hstrip⟩
  · cases h

theorem length_arrayAt? {start : Bool} {t rest : Text} (h : arrayAt? start t = some rest) :
    rest.length < t.length := by
  obtain ⟨-, opener, hopener, rfl⟩ := exists_opener_of_arrayAt? h
  have hlength : ∀ o ∈ openers, 0 < o.length := by decide
  have hpos := hlength opener hopener
  rw [List.length_append]
  omega

theorem length_untilEnd? {n : Nat} {t inside after : Text}
    (h : untilEnd? n t = some (inside, after)) : t.length = inside.length + after.length + 1 := by
  induction t generalizing n inside with
  | nil => cases h
  | cons c t ih =>
    rw [untilEnd?] at h
    split at h
    · cases h
      simp
    · obtain ⟨⟨x, y⟩, hxy, heq⟩ := Option.map_eq_some_iff.1 h
      obtain ⟨rfl, rfl⟩ := Prod.mk.inj heq
      simp only [List.length_cons, ih hxy]
      omega

/-- What stands inside and after the read-only array with which the text starts. -/
def arraySplit? (start : Bool) (t : Text) : Option (Text × Text) :=
  (arrayAt? start t).bind (untilEnd? 0)

theorem length_arraySplit? {start : Bool} {t inside after : Text}
    (h : arraySplit? start t = some (inside, after)) : inside.length + after.length < t.length := by
  obtain ⟨rest, hrest, hend⟩ := Option.bind_eq_some_iff.1 h
  have hlt := length_arrayAt? hrest
  have heq := length_untilEnd? hend
  omega

/-- Write every read-only array, outermost first and then those inside, as `readonly T[]`. The flag
says that a word can start at the beginning of the text. -/
def readFrom (start : Bool) (t : Text) : Text :=
  match t with
  | [] => []
  | c :: t =>
    match _hsplit : arraySplit? start (c :: t) with
    | some (inside, after) =>
      qualifier ++ readFrom true inside ++ "[]".toList ++ readFrom true after
    | none => c :: readFrom (!isWordChar c) t
termination_by t.length
decreasing_by
  · exact Nat.lt_of_le_of_lt (Nat.le_add_right _ _) (length_arraySplit? _hsplit)
  · exact Nat.lt_of_le_of_lt (Nat.le_add_left _ _) (length_arraySplit? _hsplit)
  · simp

def read (t : Text) : Text := readFrom true t

/-- A type text is made of openings of read-only arrays and other characters. -/
inductive Piece
  | array
  | char (c : Char)
  deriving DecidableEq, Repr

def pieces (start : Bool) (t : Text) : List Piece :=
  match t with
  | [] => []
  | c :: t =>
    match _harray : arrayAt? start (c :: t) with
    | some rest => .array :: pieces true rest
    | none => .char c :: pieces (!isWordChar c) t
termination_by t.length
decreasing_by
  · exact length_arrayAt? _harray
  · simp

/-- Write every read-only array as `readonly T[]`. The list says for every open `<`, from the inside
out, whether it belongs to an array. -/
def spell : List Bool → List Piece → Text
  | _, [] => []
  | s, .array :: ps => qualifier ++ spell (true :: s) ps
  | s, .char c :: ps =>
    if c = '<' then '<' :: spell (false :: s) ps
    else if c = '>' then (if s.headD false then "[]".toList else [c]) ++ spell s.tail ps
    else c :: spell s ps

theorem arrayAt?_opener {opener : Text} (h : opener ∈ openers) (rest : Text) :
    arrayAt? true (opener ++ rest) = some rest := by
  simp only [openers, List.mem_cons, List.not_mem_nil, or_false] at h
  rcases h with rfl | rfl <;> rfl

theorem arrayAt?_of_ne {c : Char} (hc : c ≠ 'R') (start : Bool) (t : Text) :
    arrayAt? start (c :: t) = none := by
  cases h : arrayAt? start (c :: t) with
  | none => rfl
  | some rest =>
    obtain ⟨-, opener, hopener, ht⟩ := exists_opener_of_arrayAt? h
    have hhead : ∀ o ∈ openers, o.head? = some 'R' := by decide
    have hR : (c :: t).head? = some 'R' := by
      rw [ht, List.head?_append, hhead opener hopener]
      rfl
    exact absurd (Option.some.inj hR) hc

theorem level_opener {opener : Text} (h : opener ∈ openers) (n : Nat) (rest : Text) :
    level n (opener ++ rest) = level (n + 1) rest := by
  simp only [openers, List.mem_cons, List.not_mem_nil, or_false] at h
  rcases h with rfl | rfl <;> rfl

def EndsPart (rest : Text) : Prop := rest = [] ∨ ∃ t, rest = '>' :: t

theorem arrayAt?_append {rest : Text} (hrest : EndsPart rest) (start : Bool) (t : Text) :
    arrayAt? start (t ++ rest) = (arrayAt? start t).map (· ++ rest) := by
  cases h : arrayAt? start t with
  | some r =>
    obtain ⟨rfl, opener, hopener, rfl⟩ := exists_opener_of_arrayAt? h
    rw [List.append_assoc, arrayAt?_opener hopener]
    rfl
  | none =>
    cases h' : arrayAt? start (t ++ rest) with
    | none => rfl
    | some r =>
      obtain ⟨rfl, opener, hopener, ht⟩ := exists_opener_of_arrayAt? h'
      have hend : ∀ o ∈ openers, '>' ∉ o := by decide
      obtain ⟨r', rfl⟩ : opener <+: t := by
        rcases hrest with rfl | ⟨u, rfl⟩
        · rw [List.append_nil] at ht
          exact ⟨r, ht.symm⟩
        · exact prefix_of_prefix_cons (hend opener hopener) ⟨r, ht.symm⟩
      rw [arrayAt?_opener hopener] at h
      cases h

/-- In a text that closes one `<` more than it opens, the `>` that does is found. -/
theorem exists_untilEnd? {n m : Nat} {t : Text} (h : level (n + 1 + m) t = some 0) :
    ∃ inside after, untilEnd? n t = some (inside, after) ∧ t = inside ++ '>' :: after ∧
      level n inside = some 0 ∧ level m after = some 0 := by
  induction t generalizing n with
  | nil => simp [level] at h
  | cons c t ih =>
    rw [level] at h
    by_cases hopen : c = '<'
    · subst hopen
      rw [if_pos rfl, Nat.add_right_comm] at h
      obtain ⟨inside, after, hend, rfl, hinside, hafter⟩ := ih h
      exact ⟨'<' :: inside, after, by simp [untilEnd?, hend], by simp, by simp [level, hinside],
        hafter⟩
    · rw [if_neg hopen] at h
      by_cases hclose : c = '>'
      · subst hclose
        rw [if_pos rfl, if_neg (by omega)] at h
        cases n with
        | zero => exact ⟨[], t, by simp [untilEnd?], by simp, rfl, by simpa using h⟩
        | succ n =>
          rw [show n + 1 + 1 + m - 1 = n + 1 + m by omega] at h
          obtain ⟨inside, after, hend, rfl, hinside, hafter⟩ := ih h
          exact ⟨'>' :: inside, after, by simp [untilEnd?, hend], by simp, by simp [level, hinside],
            hafter⟩
      · rw [if_neg hclose] at h
        obtain ⟨inside, after, hend, rfl, hinside, hafter⟩ := ih h
        exact ⟨c :: inside, after, by simp [untilEnd?, hopen, hclose, hend], by simp,
          by simp [level, hopen, hclose, hinside], hafter⟩

theorem pieces_of_some {start : Bool} {t rest : Text} (h : arrayAt? start t = some rest) :
    pieces start t = .array :: pieces true rest := by
  cases t with
  | nil =>
    have hlt := length_arrayAt? h
    simp at hlt
  | cons c t =>
    rw [pieces]
    split
    · rename_i h'
      rw [h] at h'
      cases h'
      rfl
    · rename_i h'
      rw [h] at h'
      cases h'

theorem pieces_of_none {start : Bool} {c : Char} {t : Text}
    (h : arrayAt? start (c :: t) = none) :
    pieces start (c :: t) = .char c :: pieces (!isWordChar c) t := by
  rw [pieces]
  split
  · rename_i h'
    rw [h] at h'
    cases h'
  · rfl

theorem pieces_endsPart {rest : Text} (h : EndsPart rest) (start : Bool) :
    pieces start rest = pieces true rest := by
  rcases h with rfl | ⟨t, rfl⟩
  · rw [pieces, pieces]
  · have hne : '>' ≠ 'R' := by decide
    rw [pieces_of_none (arrayAt?_of_ne hne start t), pieces_of_none (arrayAt?_of_ne hne true t)]

theorem arraySplit?_of_level {start : Bool} {n : Nat} {t rest : Text}
    (h : arrayAt? start t = some rest) (hlevel : level n t = some 0) :
    ∃ inside after, arraySplit? start t = some (inside, after) ∧ rest = inside ++ '>' :: after ∧
      level 0 inside = some 0 ∧ level n after = some 0 := by
  obtain ⟨-, opener, hopener, rfl⟩ := exists_opener_of_arrayAt? h
  rw [level_opener hopener, ← Nat.zero_add n, Nat.add_right_comm] at hlevel
  obtain ⟨inside, after, hend, hrest, hinside, hafter⟩ := exists_untilEnd? hlevel
  exact ⟨inside, after, by rw [arraySplit?, h, Option.bind_some, hend], hrest, hinside, hafter⟩

theorem readFrom_of_some {start : Bool} {t inside after : Text}
    (h : arraySplit? start t = some (inside, after)) :
    readFrom start t = qualifier ++ readFrom true inside ++ "[]".toList ++ readFrom true after := by
  cases t with
  | nil =>
    have hlt := length_arraySplit? h
    simp at hlt
  | cons c t =>
    rw [readFrom]
    split
    · rename_i h'
      rw [h] at h'
      cases h'
      rfl
    · rename_i h'
      rw [h] at h'
      cases h'

theorem readFrom_of_none {start : Bool} {c : Char} {t : Text}
    (h : arrayAt? start (c :: t) = none) :
    readFrom start (c :: t) = c :: readFrom (!isWordChar c) t := by
  rw [readFrom]
  split
  · rename_i h'
    rw [arraySplit?, h] at h'
    cases h'
  · rfl

/-- A part that closes all it opens, and `n` plain `<` before it, is spelled as it is read. -/
theorem spell_pieces_append {n : Nat} {t rest : Text} (hlevel : level n t = some 0)
    (hrest : EndsPart rest) (start : Bool) (s : List Bool) :
    spell (List.replicate n false ++ s) (pieces start (t ++ rest)) =
      readFrom start t ++ spell s (pieces true rest) := by
  induction hk : t.length using Nat.strongRecOn generalizing n t rest start s with
  | ind k ih =>
    subst hk
    cases h : arrayAt? start t with
    | some r =>
      obtain ⟨inside, after, hsplit, rfl, hinside, hafter⟩ := arraySplit?_of_level h hlevel
      have hlength := length_arraySplit? hsplit
      have hend : EndsPart ('>' :: (after ++ rest)) := Or.inr ⟨_, rfl⟩
      have happend : arrayAt? start (t ++ rest) = some (inside ++ '>' :: (after ++ rest)) := by
        rw [arrayAt?_append hrest, h]
        simp
      have hpieces : pieces true ('>' :: (after ++ rest)) =
          .char '>' :: pieces true (after ++ rest) := pieces_of_none (arrayAt?_of_ne (by decide) _ _)
      have hin : spell (true :: (List.replicate n false ++ s))
            (pieces true (inside ++ '>' :: (after ++ rest))) =
          readFrom true inside ++ spell (true :: (List.replicate n false ++ s))
            (pieces true ('>' :: (after ++ rest))) :=
        ih inside.length (by omega) hinside hend true _ rfl
      have hout : spell (List.replicate n false ++ s) (pieces true (after ++ rest)) =
          readFrom true after ++ spell s (pieces true rest) :=
        ih after.length (by omega) hafter hrest true s rfl
      rw [pieces_of_some happend, spell, hin, hpieces, readFrom_of_some hsplit]
      simp [spell, hout]
    | none =>
      cases t with
      | nil =>
        obtain rfl : n = 0 := by simpa [level] using hlevel
        rw [List.nil_append, pieces_endsPart hrest, readFrom]
        rfl
      | cons c t =>
        have happend : arrayAt? start (c :: (t ++ rest)) = none := by
          rw [← List.cons_append, arrayAt?_append hrest, h]
          rfl
        have hnext (m : Nat) (hm : level m t = some 0) :
            spell (List.replicate m false ++ s) (pieces (!isWordChar c) (t ++ rest)) =
              readFrom (!isWordChar c) t ++ spell s (pieces true rest) :=
          ih t.length (by simp) hm hrest _ s rfl
        rw [List.cons_append, pieces_of_none happend, readFrom_of_none h, spell]
        rw [level] at hlevel
        by_cases hopen : c = '<'
        · rw [if_pos hopen] at hlevel ⊢
          have hstack : false :: (List.replicate n false ++ s) = List.replicate (n + 1) false ++ s :=
            rfl
          rw [hstack, hnext (n + 1) hlevel, hopen, List.cons_append]
        · rw [if_neg hopen] at hlevel ⊢
          by_cases hclose : c = '>'
          · rw [if_pos hclose] at hlevel ⊢
            cases n with
            | zero => cases hlevel
            | succ n => simpa [List.replicate_succ] using hnext n hlevel
          · rw [if_neg hclose] at hlevel ⊢
            rw [hnext n hlevel, List.cons_append]

theorem read_eq_spell {t : Text} (h : Balanced t) : read t = spell [] (pieces true t) := by
  have hspell := spell_pieces_append h (Or.inl rfl) true []
  simpa [read, pieces, spell] using hspell.symm

end TypeText
end TypeComments
