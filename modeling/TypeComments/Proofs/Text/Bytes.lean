import TypeComments.Text.Bytes

/-! The bytes of a text in UTF-8. A character below 128 is one byte, and every byte of another one
is 128 or more, so that a byte below 128 always stands for a character of its own. No character's
bytes start with those of another. A word that starts with a character below 128 is therefore found
among the bytes of a text just where it is found in the text. -/

namespace TypeComments
namespace Text

theorem bytes_eq_nil_iff {t : Text} : bytes t = [] ↔ t = [] := by
  cases t <;> simp

theorem utf8EncodeChar_cases (c : Char) :
    (c.toNat < 128 ∧ String.utf8EncodeChar c = [UInt8.ofNat c.toNat]) ∨
      (128 ≤ c.toNat ∧ ∀ b ∈ String.utf8EncodeChar c, 128 ≤ b.toNat) := by
  have hval : c.val.toNat = c.toNat := rfl
  unfold String.utf8EncodeChar
  simp only [hval]
  split
  · exact Or.inl ⟨by omega, rfl⟩
  · refine Or.inr ⟨by omega, ?_⟩
    repeat' split
    all_goals
      simp only [List.forall_mem_cons, List.not_mem_nil, false_implies, implies_true, and_true,
        UInt8.toNat_ofNat', Nat.reducePow]
      omega

theorem utf8EncodeChar_of_lt {c : Char} (h : c.toNat < 128) :
    String.utf8EncodeChar c = [UInt8.ofNat c.toNat] := by
  rcases utf8EncodeChar_cases c with ⟨-, hsingle⟩ | ⟨hlarge, -⟩
  · exact hsingle
  · omega

theorem eq_of_utf8EncodeChar_append {c d : Char} {x y : List UInt8}
    (h : String.utf8EncodeChar c ++ x = String.utf8EncodeChar d ++ y) : c = d ∧ x = y := by
  have hdecode (e : Char) (z : List UInt8) :
      (String.utf8EncodeChar e ++ z).toByteArray.utf8DecodeChar? 0 = some e := by
    rw [List.toByteArray_append]
    exact ByteArray.utf8DecodeChar?_utf8EncodeChar_append
  have hsome : some c = some d := by rw [← hdecode c x, h, hdecode d y]
  cases hsome
  exact ⟨rfl, List.append_cancel_left h⟩

theorem exists_of_bytes_eq_append {t s : Text} {y : List UInt8} (h : bytes t = bytes s ++ y) :
    ∃ t', t = s ++ t' ∧ bytes t' = y := by
  induction s generalizing t with
  | nil => exact ⟨t, rfl, h⟩
  | cons c s ih =>
    cases t with
    | nil => simp at h
    | cons d t =>
      rw [bytes_cons, bytes_cons, List.append_assoc] at h
      obtain ⟨rfl, hrest⟩ := eq_of_utf8EncodeChar_append h
      obtain ⟨t', rfl, ht'⟩ := ih hrest
      exact ⟨t', rfl, ht'⟩

theorem exists_of_bytes_eq_cons {t : Text} {before after : List UInt8} {b : UInt8}
    (hb : b.toNat < 128) (h : bytes t = before ++ b :: after) :
    ∃ a r, t = a ++ r ∧ bytes a = before ∧ bytes r = b :: after := by
  induction t generalizing before with
  | nil => simp at h
  | cons c t ih =>
    rw [bytes_cons] at h
    rcases List.append_eq_append_iff.1 h with ⟨m, rfl, ht⟩ | ⟨m, hc, hm⟩
    · obtain ⟨a, r, rfl, rfl, hr⟩ := ih ht
      exact ⟨c :: a, r, rfl, by simp, hr⟩
    · cases m with
      | nil =>
        obtain ⟨a, r, rfl, ha, hr⟩ := @ih [] hm.symm
        exact ⟨c :: a, r, rfl, by simp [ha, hc], hr⟩
      | cons x m =>
        obtain ⟨rfl, -⟩ := List.cons.inj hm
        rcases utf8EncodeChar_cases c with ⟨-, hsingle⟩ | ⟨-, hlarge⟩
        · obtain rfl : before = [] := by
            have hlength := congrArg List.length (hsingle.symm.trans hc)
            simp only [List.length_append, List.length_cons, List.length_nil] at hlength
            exact List.eq_nil_of_length_eq_zero (by omega)
          exact ⟨[], c :: t, rfl, rfl, h⟩
        · have := hlarge b (by simp [hc])
          omega

/-- Where the bytes of a text that starts with a character below 128 stand, the text stands. -/
theorem exists_of_bytes_eq_infix {t s : Text} {c : Char} {before after : List UInt8}
    (hc : c.toNat < 128) (h : bytes t = before ++ bytes (c :: s) ++ after) :
    ∃ a r, t = a ++ (c :: s) ++ r ∧ bytes a = before ∧ bytes r = after := by
  have hsingle := utf8EncodeChar_of_lt hc
  have hbyte : (UInt8.ofNat c.toNat).toNat < 128 := by
    rw [UInt8.toNat_ofNat']
    omega
  rw [List.append_assoc, bytes_cons, hsingle, List.singleton_append, List.cons_append] at h
  obtain ⟨a, r, rfl, rfl, hr⟩ := exists_of_bytes_eq_cons hbyte h
  have hr' : bytes r = bytes (c :: s) ++ after := by
    rw [hr, bytes_cons, hsingle]
    rfl
  obtain ⟨r', rfl, hafter⟩ := exists_of_bytes_eq_append hr'
  exact ⟨a, r', by simp, rfl, hafter⟩

theorem place?_append_self (word bs : List UInt8) : place? word (word ++ bs) = some 0 := by
  cases h : word ++ bs with
  | nil =>
    obtain ⟨rfl, -⟩ := List.append_eq_nil_iff.1 h
    rfl
  | cons x xs =>
    have hprefix : word.isPrefixOf (x :: xs) = true :=
      List.isPrefixOf_iff_prefix.2 ⟨bs, h⟩
    rw [place?, if_pos hprefix]

theorem place?_cons_of_not_first {word bs : List UInt8} {x : UInt8} (h : ¬ word <+: x :: bs) :
    place? word (x :: bs) = (place? word bs).map (· + 1) := by
  rw [place?, if_neg]
  rwa [List.isPrefixOf_iff_prefix]

theorem place?_append_of_not_mem {b : UInt8} {word xs : List UInt8} (h : b ∉ xs)
    (bs : List UInt8) :
    place? (b :: word) (xs ++ bs) = (place? (b :: word) bs).map (· + xs.length) := by
  induction xs with
  | nil => simp
  | cons x xs ih =>
    simp only [List.mem_cons, not_or] at h
    have hno : ¬ b :: word <+: x :: (xs ++ bs) := by
      rw [List.cons_prefix_cons]
      exact fun hbx => h.1 hbx.1
    rw [List.cons_append, place?_cons_of_not_first hno, ih h.2, Option.map_map]
    rfl

/-- A word that starts below 128 is found among the bytes of a text where it is found in the text.
-/
theorem place?_bytes {c : Char} (hc : c.toNat < 128) (s t : Text) :
    place? (bytes (c :: s)) (bytes t) = (splitAt? (c :: s) t).map fun p => size p.1 := by
  have hsingle := utf8EncodeChar_of_lt hc
  induction t with
  | nil => simp [hsingle, place?, splitAt?]
  | cons d t ih =>
    rw [splitAt?]
    cases hstrip : strip? (c :: s) (d :: t) with
    | some rest =>
      rw [strip?_eq_some_iff.1 hstrip, bytes_append, place?_append_self]
      rfl
    | none =>
      have hno : ¬ bytes (c :: s) <+: bytes (d :: t) := by
        rintro ⟨y, hy⟩
        obtain ⟨rest, hrest, -⟩ := exists_of_bytes_eq_append hy.symm
        rw [strip?_eq_some_iff.2 hrest] at hstrip
        cases hstrip
      have hsize := String.length_utf8EncodeChar d
      have hgo : place? (bytes (c :: s)) (bytes (d :: t)) =
          (place? (bytes (c :: s)) (bytes t)).map (· + d.utf8Size) := by
        rcases utf8EncodeChar_cases d with ⟨-, hd⟩ | ⟨-, hd⟩
        · rw [hd, List.length_singleton] at hsize
          rw [bytes_cons d, hd, List.singleton_append] at hno ⊢
          rw [place?_cons_of_not_first hno, hsize]
        · have hnot : UInt8.ofNat c.toNat ∉ String.utf8EncodeChar d := by
            intro hmem
            have hlarge := hd _ hmem
            rw [UInt8.toNat_ofNat'] at hlarge
            omega
          rw [bytes_cons d, bytes_cons c, hsingle, List.singleton_append,
            place?_append_of_not_mem hnot, hsize]
      rw [hgo, ih, Option.map_map, Option.map_map]
      congr 1
      funext p
      simp [Nat.add_comm]

theorem find?_append {c : Char} (hc : c.toNat < 128) (s a t : Text) :
    find? (c :: s) (a ++ t) (size a) =
      (splitAt? (c :: s) t).map fun p => size a + size p.1 := by
  have hdrop : (bytes (a ++ t)).drop (size a) = bytes t := by
    rw [bytes_append, ← length_bytes, List.drop_left]
  rw [find?, hdrop, place?_bytes hc, Option.map_map]
  rfl

end Text
end TypeComments
