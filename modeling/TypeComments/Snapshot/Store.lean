import Std.Data.ExtTreeMap
import TypeComments.Text.Basic

/-! Where snapshots are kept. A snapshot is a type text stored under the name of a file and a name
of its own. Any store can be read; a write may be refused, and then there is no new store. -/

namespace TypeComments

inductive SnapshotError
  | rejected (file name reason : Text)
  | storage (cause : Text)
  deriving DecidableEq, Repr

def SnapshotError.message : SnapshotError → String
  | rejected file name reason =>
    "cannot write snapshot `" ++ String.ofList name ++ "` for `" ++ String.ofList file ++ "`: " ++
      String.ofList reason
  | storage cause => "snapshot store I/O failed: " ++ String.ofList cause

class SnapshotStore (σ : Type) where
  read : σ → (file name : Text) → Option Text
  write : σ → (file name text : Text) → Except SnapshotError σ

/-- Snapshots held in memory, grouped by file. -/
structure MemoryStore where
  files : Std.ExtTreeMap Text (Std.ExtTreeMap Text Text) := ∅

namespace MemoryStore

def read (s : MemoryStore) (file name : Text) : Option Text := s.files[file]?.bind (·[name]?)

def write (s : MemoryStore) (file name text : Text) : MemoryStore :=
  ⟨s.files.insert file (((s.files[file]?).getD ∅).insert name text)⟩

instance : SnapshotStore MemoryStore where
  read := read
  write s file name text := .ok (s.write file name text)

/-- File, name and text of every snapshot, in order of file and name. -/
def toList (s : MemoryStore) : List (Text × Text × Text) :=
  s.files.toList.flatMap fun p => p.2.toList.map fun q => (p.1, q.1, q.2)

def size (s : MemoryStore) : Nat := s.toList.length

def isEmpty (s : MemoryStore) : Bool := s.files.toList.all fun p => p.2.isEmpty

def writeAll (s : MemoryStore) (entries : List (Text × Text × Text)) : MemoryStore :=
  entries.foldl (fun s e => s.write e.1 e.2.1 e.2.2) s

@[simp] theorem read_empty (file name : Text) : (({} : MemoryStore).read file name) = none := by
  simp [read]

theorem read_write (s : MemoryStore) (file name text f n : Text) :
    (s.write file name text).read f n =
      if file = f ∧ name = n then some text else s.read f n := by
  by_cases hf : file = f
  · subst hf
    by_cases hn : name = n
    · simp [read, write, hn]
    · cases h : s.files[file]? <;> simp [read, write, hn, h, Std.ExtTreeMap.getElem?_insert]
  · simp [read, write, hf, Std.ExtTreeMap.getElem?_insert]

end MemoryStore
end TypeComments
