import TypeComments.Snapshot.Store

/-! A store in memory that may be told to refuse writes, and that counts those it makes. -/

namespace TypeComments

inductive Refusal
  | nothing
  | everything
  /-- Every write of a snapshot with one of these names, whatever the file. -/
  | names (names : List Text)
  deriving DecidableEq, Repr

def Refusal.refuses : Refusal → (name : Text) → Bool
  | nothing, _ => false
  | everything, _ => true
  | names ns, name => name ∈ ns

structure GuardedStore where
  memory : MemoryStore := {}
  refusal : Refusal := .nothing
  failsInStorage : Bool := false
  writes : Nat := 0

namespace GuardedStore

def refusalError (s : GuardedStore) (file name : Text) : SnapshotError :=
  if s.failsInStorage then .storage "read-only snapshot file".toList
  else .rejected file name "store is read-only".toList

def write (s : GuardedStore) (file name text : Text) : Except SnapshotError GuardedStore :=
  if s.refusal.refuses name then .error (s.refusalError file name)
  else .ok { s with memory := s.memory.write file name text, writes := s.writes + 1 }

instance : SnapshotStore GuardedStore where
  read s := s.memory.read
  write := write

end GuardedStore
end TypeComments
