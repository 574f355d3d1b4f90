import TypeComments.Edit
import TypeComments.Snapshot.Store

/-! The wish to store a snapshot. It is granted at most once: an update that has been applied does
not write again, and one whose write was refused can be tried again. -/

namespace TypeComments

structure SnapshotUpdate where
  file : Text
  name : Text
  text : Text
  applied : Bool := false
  deriving DecidableEq, Repr

namespace SnapshotUpdate

/-- What the update changes in the source: nothing, since snapshots are kept elsewhere. -/
def edit (_ : SnapshotUpdate) : TextEdit := TextEdit.insert 0 []

structure Applied (σ : Type) where
  update : SnapshotUpdate
  store : σ
  wrote : Bool

def apply {σ : Type} [SnapshotStore σ] (u : SnapshotUpdate) (s : σ) :
    Except SnapshotError (Applied σ) :=
  if u.applied then .ok ⟨u, s, false⟩
  else
    (SnapshotStore.write s u.file u.name u.text).map fun s' =>
      ⟨{ u with applied := true }, s', true⟩

theorem apply_of_applied {σ : Type} [SnapshotStore σ] {u : SnapshotUpdate} (h : u.applied = true)
    (s : σ) : u.apply s = .ok ⟨u, s, false⟩ := by
  simp [apply, h]

end SnapshotUpdate
end TypeComments
