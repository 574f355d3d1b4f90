import Mathlib.Data.List.Infix
import TypeComments.Proofs.Assertion.OnePerLine

/-! Runs of insertions. Whoever builds assertions without a source may put any number of claims on a
line. Each second claim of a sort takes the one before it away, so that an odd number leaves the
last and an even number leaves none; that two claims have met is remembered for good. -/

namespace TypeComments

/-- A claim on a line that is put into the assertions of a file. -/
inductive Insertion
  | type (line : Nat) (assertion : TypeAssertion)
  | error (line : Nat)
  deriving DecidableEq, Repr

namespace Insertion

def typesOn (l : Nat) (is : List Insertion) : List TypeAssertion :=
  is.filterMap fun
    | type line assertion => if line = l then some assertion else none
    | error _ => none

def errorsOn (l : Nat) (is : List Insertion) : Nat :=
  is.countP fun
    | type _ _ => false
    | error line => line = l

/-- Two claims of one sort are put on line `l`. -/
def collide (l : Nat) (is : List Insertion) : Bool :=
  2 ≤ (typesOn l is).length ∨ 2 ≤ errorsOn l is

/-- The number of insertions after which two claims of one sort have met on line `l`. -/
def firstCollision (l : Nat) (is : List Insertion) : Nat := is.inits.findIdx (collide l)

def record : Insertion → Record
  | type line assertion => .type line assertion
  | error line => .error line

theorem filterMap_typeOn?_record (l : Nat) (is : List Insertion) :
    (is.map record).filterMap (Record.typeOn? l) = typesOn l is := by
  rw [List.filterMap_map, typesOn]
  congr 1
  funext i
  cases i <;> rfl

theorem countP_isErrorOn_record (l : Nat) (is : List Insertion) :
    (is.map record).countP (Record.isErrorOn l) = errorsOn l is := by
  rw [List.countP_map, errorsOn]
  congr 1
  funext i
  cases i <;> rfl

theorem collide_of_front {l : Nat} {front is : List Insertion} (hfront : front <+: is)
    (h : collide l front = true) : collide l is = true := by
  have htypes : (typesOn l front).length ≤ (typesOn l is).length :=
    (hfront.sublist.filterMap _).length_le
  have herrors : errorsOn l front ≤ errorsOn l is := hfront.sublist.countP_le
  simp only [collide, decide_eq_true_eq] at h ⊢
  omega

theorem firstCollision_le {l : Nat} {is : List Insertion} (h : collide l is = true) :
    firstCollision l is ≤ is.length := by
  have hlt : firstCollision l is < is.inits.length :=
    List.findIdx_lt_length_of_exists ⟨is, (List.mem_inits is is).2 (List.prefix_refl is), h⟩
  rw [List.length_inits] at hlt
  omega

theorem firstCollision_concat {l : Nat} {is : List Insertion} (h : collide l is = true)
    (i : Insertion) : firstCollision l (is ++ [i]) = firstCollision l is := by
  have hlt : is.inits.findIdx (collide l) < is.inits.length := by
    have hle := firstCollision_le h
    rw [firstCollision] at hle
    rw [List.length_inits]
    omega
  rw [firstCollision, List.inits_append, List.findIdx_append, if_pos hlt, firstCollision]

theorem lt_firstCollision_concat {l : Nat} {is : List Insertion} (h : collide l is = false)
    (i : Insertion) : is.length < firstCollision l (is ++ [i]) := by
  have hnone : is.inits.findIdx (collide l) = is.inits.length := by
    rw [List.findIdx_eq_length]
    intro front hfront
    rw [Bool.eq_false_iff]
    intro hcollide
    rw [collide_of_front ((List.mem_inits _ _).1 hfront) hcollide] at h
    cases h
  rw [firstCollision, List.inits_append, List.findIdx_append, hnone, if_neg (Nat.lt_irrefl _),
    List.length_inits]
  omega

end Insertion

namespace Assertions

open Insertion

def insert (a : Assertions) : Insertion → Assertions
  | .type line assertion => a.insertType line assertion
  | .error line => a.insertError line

def insertAll (is : List Insertion) : Assertions := is.foldl insert {}

theorem insert_eq_add (a : Assertions) (i : Insertion) : a.insert i = a.add i.record := by
  cases i <;> rfl

theorem insertAll_eq_foldl (is : List Insertion) :
    insertAll is = (is.map record).foldl add {} := by
  rw [List.foldl_map, insertAll]
  congr 1
  funext a i
  exact insert_eq_add a i

theorem insertAll_concat (is : List Insertion) (i : Insertion) :
    insertAll (is ++ [i]) = (insertAll is).insert i := by
  rw [insertAll, List.foldl_append]
  rfl

theorem mem_duplicateLines_insertAll {is : List Insertion} {l : Nat} :
    l ∈ (insertAll is).duplicateLines ↔ collide l is = true := by
  rw [insertAll_eq_foldl, mem_duplicateLines_foldl, filterMap_typeOn?_record,
    countP_isErrorOn_record, collide, decide_eq_true_eq]

theorem duplicateLines_insert (a : Assertions) (i : Insertion) :
    (a.insert i).duplicateLines = a.duplicateLines ∨
      ∃ l, l ∉ a.duplicateLines ∧ (a.insert i).duplicateLines = a.duplicateLines ++ [l] := by
  rw [insert_eq_add]
  rcases duplicateLines_add a i.record with hsame | ⟨l, -, -, hnew, hmore⟩
  · exact Or.inl hsame
  · exact Or.inr ⟨l, hnew, hmore⟩

/-- Lines are listed as duplicates in the order of their first collisions. -/
theorem duplicateLines_insertAll_ordered (is : List Insertion) :
    (insertAll is).duplicateLines.Pairwise fun l l' =>
      firstCollision l is < firstCollision l' is := by
  induction is using List.reverseRecOn with
  | nil => exact List.Pairwise.nil
  | append_singleton is i ih =>
    have hlisted : ∀ l ∈ (insertAll is).duplicateLines,
        firstCollision l (is ++ [i]) = firstCollision l is :=
      fun l hl => firstCollision_concat (mem_duplicateLines_insertAll.1 hl) i
    have hkept : (insertAll is).duplicateLines.Pairwise fun l l' =>
        firstCollision l (is ++ [i]) < firstCollision l' (is ++ [i]) := by
      refine ih.imp_of_mem ?_
      intro l l' hl hl' hlt
      rwa [hlisted l hl, hlisted l' hl']
    rw [insertAll_concat]
    rcases duplicateLines_insert (insertAll is) i with hsame | ⟨l', hnew, hmore⟩
    · rwa [hsame]
    · rw [hmore, List.pairwise_append]
      refine ⟨hkept, List.pairwise_singleton _ _, ?_⟩
      intro l hl l'' hl''
      obtain rfl := List.mem_singleton.1 hl''
      -- `l` has met its second claim before this insertion, and `l''` has not.
      have hle := firstCollision_le (mem_duplicateLines_insertAll.1 hl)
      have hlt := lt_firstCollision_concat
        (Bool.eq_false_iff.2 fun h => hnew (mem_duplicateLines_insertAll.2 h)) i
      rw [hlisted l hl]
      omega

/-- What a run of insertions leaves behind, told by the numbers of insertions on each line. -/
structure Tallies (is : List Insertion) (a : Assertions) : Prop where
  types : ∀ l, a.types[l]? =
    if (typesOn l is).length % 2 = 1 then (typesOn l is).getLast? else none
  errors : ∀ l, l ∈ a.errorLines ↔ errorsOn l is % 2 = 1
  duplicates : ∀ l, l ∈ a.duplicateLines ↔ 2 ≤ (typesOn l is).length ∨ 2 ≤ errorsOn l is
  once : a.duplicateLines.Nodup
  order : a.duplicateLines.Pairwise fun l l' => firstCollision l is < firstCollision l' is
  carets : a.carets = []
  mistakes : a.mistakes = []

/-- After any run of insertions, a line holds the last type assertion put there if their number is
odd, and demands an error if the number of demands is odd. The lines on which two claims of a sort
have met, once or more often, are listed by the first time. -/
theorem insertAll_tallies (is : List Insertion) : (insertAll is).Tallies is where
  types l := by rw [insertAll_eq_foldl, types_foldl, filterMap_typeOn?_record]
  errors l := by rw [insertAll_eq_foldl, mem_errorLines_foldl, countP_isErrorOn_record]
  duplicates l := by rw [mem_duplicateLines_insertAll, collide, decide_eq_true_eq]
  once := by
    refine (duplicateLines_insertAll_ordered is).imp ?_
    rintro l l' hlt rfl
    exact Nat.lt_irrefl _ hlt
  order := duplicateLines_insertAll_ordered is
  carets := by
    rw [insertAll_eq_foldl, carets_foldl, List.nil_append, List.filterMap_map,
      List.filterMap_eq_nil_iff]
    intro i _
    cases i <;> rfl
  mistakes := by
    rw [insertAll_eq_foldl, mistakes_foldl, List.nil_append, List.filterMap_map,
      List.filterMap_eq_nil_iff]
    intro i _
    cases i <;> rfl

/-- Line 2 is claimed later than line 4, and again before it. -/
example : (insertAll [.type 4 (.manual ['A']), .error 2, .error 2, .type 4 (.manual ['B']),
    .type 4 (.manual ['C'])]).duplicateLines = [2, 4] := by
  decide +kernel

end Assertions
end TypeComments
