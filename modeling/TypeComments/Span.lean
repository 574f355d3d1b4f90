/-! Half-open ranges of byte offsets. A span whose `stop` comes before its `start` is a value like
any other: it contains nothing and has no length. -/

namespace TypeComments

structure Span where
  start : Nat
  stop : Nat
  deriving DecidableEq, Inhabited, Repr

namespace Span

def point (n : Nat) : Span := ⟨n, n⟩

/-- Stands in where there is no source text to point at. -/
def dummy : Span := ⟨0, 0⟩

def isEmpty (s : Span) : Bool := s.start == s.stop

def length? (s : Span) : Option Nat := if s.start ≤ s.stop then some (s.stop - s.start) else none

def contains (s : Span) (n : Nat) : Bool := s.start ≤ n && n < s.stop

@[simp] theorem contains_iff {s : Span} {n : Nat} :
    s.contains n = true ↔ s.start ≤ n ∧ n < s.stop := by
  simp [contains]

@[simp] theorem isEmpty_iff {s : Span} : s.isEmpty = true ↔ s.start = s.stop := by
  simp [isEmpty]

/-- Move the end of a span forward to `n`; never backward. -/
def extendTo (s : Span) (n : Nat) : Span := ⟨s.start, max s.stop n⟩

protected def toString (s : Span) : String := s!"{s.start}..{s.stop}"

instance : ToString Span := ⟨Span.toString⟩

end Span
end TypeComments
