/-!
# Texts

A text is a list of characters. Positions in a text are byte offsets of its UTF-8 form, so that an
offset may fall inside a character; `cut?` and `slice?` answer only at the boundaries between
characters. Each operation comes with the equation on `++` that characterises it.
-/

namespace TypeComments

abbrev Text := List Char

namespace Text

/-- Length in bytes. -/
def size (t : Text) : Nat := t.foldr (fun c n => c.utf8Size + n) 0

@[simp] theorem size_nil : size [] = 0 := rfl

@[simp] theorem size_cons (c : Char) (t : Text) : size (c :: t) = c.utf8Size + size t := rfl

@[simp] theorem size_append (a b : Text) : size (a ++ b) = size a + size b := by
  induction a with
  | nil => simp
  | cons c a ih => simp [ih, Nat.add_assoc]

theorem size_replicate (n : Nat) (c : Char) : size (List.replicate n c) = n * c.utf8Size := by
  induction n with
  | zero => simp
  | succ n ih => rw [List.replicate_succ, size_cons, ih, Nat.succ_mul, Nat.add_comm]

@[simp] theorem size_spaces (n : Nat) : size (List.replicate n ' ') = n :=
  (size_replicate n ' ').trans (Nat.mul_one n)

theorem size_eq_zero_iff {t : Text} : size t = 0 ↔ t = [] := by
  cases t with
  | nil => simp
  | cons c t => have := c.utf8Size_pos; simp; omega

/-- Split a text after its first `n` bytes, if a character ends there. -/
def cut? : Text → Nat → Option (Text × Text)
  | t, 0 => some ([], t)
  | [], _ + 1 => none
  | c :: t, n + 1 =>
    if c.utf8Size ≤ n + 1 then (cut? t (n + 1 - c.utf8Size)).map fun p => (c :: p.1, p.2) else none

@[simp] theorem cut?_zero (t : Text) : cut? t 0 = some ([], t) := by
  cases t <;> rfl

theorem cut?_size_append (a b : Text) : cut? (a ++ b) (size a) = some (a, b) := by
  induction a with
  | nil => simp
  | cons c a ih =>
    obtain ⟨n, hn⟩ := Nat.exists_eq_add_of_lt c.utf8Size_pos
    have hsize : size (c :: a) = (n + size a) + 1 := by simp; omega
    have hrest : n + size a + 1 - c.utf8Size = size a := by omega
    rw [List.cons_append, hsize, cut?, if_pos (by omega), hrest, ih]
    rfl

theorem eq_append_of_cut? {t a b : Text} {n : Nat} (h : cut? t n = some (a, b)) :
    t = a ++ b ∧ size a = n := by
  induction t generalizing n a with
  | nil => cases n <;> simp_all [cut?]
  | cons c t ih =>
    cases n with
    | zero => simp_all
    | succ n =>
      rw [cut?] at h
      split at h
      · rename_i hc
        obtain ⟨⟨a', b'⟩, hcut, heq⟩ := Option.map_eq_some_iff.1 h
        obtain ⟨rfl, rfl⟩ := Prod.mk.inj heq
        obtain ⟨ht, hs⟩ := ih hcut
        exact ⟨by rw [ht, List.cons_append], by rw [size_cons, hs]; omega⟩
      · simp at h

theorem cut?_eq_some_iff {t a b : Text} {n : Nat} :
    cut? t n = some (a, b) ↔ t = a ++ b ∧ size a = n :=
  ⟨eq_append_of_cut?, fun ⟨ht, hn⟩ => by rw [ht, ← hn, cut?_size_append]⟩

/-- The part of a text between two byte offsets, if both are boundaries in order. -/
def slice? (t : Text) (start stop : Nat) : Option Text :=
  if start ≤ stop then
    (cut? t start).bind fun p => (cut? p.2 (stop - start)).map Prod.fst
  else none

theorem slice?_eq_some_iff {t m : Text} {start stop : Nat} :
    slice? t start stop = some m ↔
      ∃ a b, t = a ++ m ++ b ∧ size a = start ∧ start + size m = stop := by
  constructor
  · intro h
    rw [slice?] at h
    split at h
    · obtain ⟨⟨a, r⟩, ha, hr⟩ := Option.bind_eq_some_iff.1 h
      obtain ⟨⟨m', b⟩, hm, rfl⟩ := Option.map_eq_some_iff.1 hr
      obtain ⟨rfl, rfl⟩ := cut?_eq_some_iff.1 ha
      obtain ⟨rfl, hsize⟩ := cut?_eq_some_iff.1 hm
      exact ⟨a, b, by simp, rfl, by simp only; omega⟩
    · simp at h
  · rintro ⟨a, b, rfl, rfl, rfl⟩
    rw [slice?, if_pos (by omega), List.append_assoc, cut?_size_append, Option.bind_some,
      Nat.add_sub_cancel_left, cut?_size_append]
    rfl

def charAt? (t : Text) (n : Nat) : Option Char := (cut? t n).bind fun p => p.2.head?

theorem charAt?_eq_some_iff {t : Text} {n : Nat} {c : Char} :
    charAt? t n = some c ↔ ∃ a b, t = a ++ c :: b ∧ size a = n := by
  constructor
  · intro h
    obtain ⟨⟨a, r⟩, hcut, hr⟩ := Option.bind_eq_some_iff.1 h
    obtain ⟨b, rfl⟩ := List.head?_eq_some_iff.1 hr
    exact ⟨a, b, cut?_eq_some_iff.1 hcut⟩
  · rintro ⟨a, b, rfl, rfl⟩
    simp [charAt?, cut?_size_append]

def strip? : (lead t : Text) → Option Text
  | [], t => some t
  | _ :: _, [] => none
  | c :: lead, d :: t => if c = d then strip? lead t else none

theorem strip?_eq_some_iff {lead t rest : Text} : strip? lead t = some rest ↔ t = lead ++ rest := by
  induction lead generalizing t with
  | nil => simp [strip?, eq_comm]
  | cons c lead ih =>
    cases t with
    | nil => simp [strip?]
    | cons d t =>
      by_cases h : c = d
      · simp [strip?, h, ih]
      · simp [strip?, h, Ne.symm h]

@[simp] theorem strip?_append (lead rest : Text) : strip? lead (lead ++ rest) = some rest :=
  strip?_eq_some_iff.2 rfl

theorem length_lt_of_strip? {lead t rest : Text} (h : strip? lead t = some rest)
    (hne : lead ≠ []) : rest.length < t.length := by
  have := List.length_pos_iff.2 hne
  rw [strip?_eq_some_iff.1 h, List.length_append]
  omega

def holds (word : Text) : Text → Bool
  | [] => word.isEmpty
  | c :: t => (strip? word (c :: t)).isSome || holds word t

theorem holds_iff {word t : Text} : holds word t = true ↔ ∃ a b, t = a ++ word ++ b := by
  induction t with
  | nil => simp [holds]
  | cons c t ih =>
    rw [holds, Bool.or_eq_true, ih, Option.isSome_iff_exists]
    constructor
    · rintro (⟨b, hb⟩ | ⟨a, b, rfl⟩)
      · exact ⟨[], b, by simpa using strip?_eq_some_iff.1 hb⟩
      · exact ⟨c :: a, b, by simp⟩
    · rintro ⟨a, b, h⟩
      cases a with
      | nil => exact Or.inl ⟨b, strip?_eq_some_iff.2 (by simpa using h)⟩
      | cons d a =>
        obtain ⟨-, rfl⟩ := List.cons.inj h
        exact Or.inr ⟨a, b, by simp⟩

/-- What stands before and after the first occurrence of `word`. -/
def splitAt? (word : Text) : Text → Option (Text × Text)
  | [] => if word.isEmpty then some ([], []) else none
  | c :: t =>
    match strip? word (c :: t) with
    | some rest => some ([], rest)
    | none => (splitAt? word t).map fun p => (c :: p.1, p.2)

theorem eq_append_of_splitAt? {word t before after : Text}
    (h : splitAt? word t = some (before, after)) : t = before ++ word ++ after := by
  induction t generalizing before with
  | nil => simp_all [splitAt?]
  | cons c t ih =>
    rw [splitAt?] at h
    split at h
    · rename_i rest hrest
      obtain ⟨rfl, rfl⟩ := Prod.mk.inj (Option.some.inj h)
      simpa using strip?_eq_some_iff.1 hrest
    · obtain ⟨⟨a, b⟩, hab, heq⟩ := Option.map_eq_some_iff.1 h
      obtain ⟨rfl, rfl⟩ := Prod.mk.inj heq
      rw [ih hab]
      simp

theorem splitAt?_isSome (word t : Text) : (splitAt? word t).isSome = holds word t := by
  induction t with
  | nil => by_cases h : word.isEmpty <;> simp [splitAt?, holds, h]
  | cons c t ih =>
    rw [splitAt?, holds, ← ih]
    cases strip? word (c :: t) <;> simp

end Text
end TypeComments
