/-! What is checked. Options are read from and written to named settings. -/

namespace TypeComments

structure Options where
  expectError : Bool := true
  expectType : Bool := true
  expectTypeSnapshot : Bool := true
  /-- Do not offer to store a new text for a snapshot that does not match. -/
  disableSnapshotFix : Bool := false
  deriving DecidableEq, Repr, Inhabited

namespace Options

def set (o : Options) (key : String) (value : Bool) : Options :=
  if key = "expectError" then { o with expectError := value }
  else if key = "expectType" then { o with expectType := value }
  else if key = "expectTypeSnapshot" then { o with expectTypeSnapshot := value }
  else if key = "disableSnapshotFix" then { o with disableSnapshotFix := value }
  else o

def toSettings (o : Options) : List (String × Bool) :=
  [("expectError", o.expectError), ("expectType", o.expectType),
   ("expectTypeSnapshot", o.expectTypeSnapshot), ("disableSnapshotFix", o.disableSnapshotFix)]

def isKey (key : String) : Bool := (toSettings {}).any (·.1 == key)

/-- Read options from settings, of which `none` is a value that is not a boolean. Options that are
not set have their default. -/
def ofSettings? : List (String × Option Bool) → Option Options
  | [] => some {}
  | (key, some value) :: rest => (ofSettings? rest).map (·.set key value)
  | (key, none) :: rest => if isKey key then none else ofSettings? rest

theorem ofSettings?_toSettings (o : Options) :
    ofSettings? (o.toSettings.map fun p => (p.1, some p.2)) = some o := by
  simp [toSettings, ofSettings?, set]

end Options
end TypeComments
