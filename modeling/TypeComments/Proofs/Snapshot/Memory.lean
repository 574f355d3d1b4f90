import Mathlib.Algebra.Ring.Nat
import Mathlib.Data.Finset.Card
import TypeComments.Snapshot.Store

/-! The store in memory as one flat map. It keeps a map of names for each file, but is known by what
can be read from it: its listing has each file and name once, with the text that is read there. So
what writes have led to depends on the last text for each file and name only. -/

namespace TypeComments
namespace MemoryStore

def place (e : Text × Text × Text) : Text × Text := (e.1, e.2.1)

/-- The last text written for `name` of `file`. -/
def lastText? (entries : List (Text × Text × Text)) (file name : Text) : Option Text :=
  (entries.reverse.find? fun e => e.1 = file ∧ e.2.1 = name).map (·.2.2)

theorem read_writeAll (s : MemoryStore) (entries : List (Text × Text × Text)) (file name : Text) :
    (s.writeAll entries).read file name = (lastText? entries file name).or (s.read file name) := by
  induction entries generalizing s with
  | nil => rfl
  | cons e entries ih =>
    have hrest : s.writeAll (e :: entries) = (s.write e.1 e.2.1 e.2.2).writeAll entries := rfl
    rw [hrest, ih, read_write, lastText?, lastText?, List.reverse_cons, List.find?_append]
    cases entries.reverse.find? fun e => e.1 = file ∧ e.2.1 = name with
    | some last => rfl
    | none => by_cases he : e.1 = file ∧ e.2.1 = name <;> simp [he]

theorem read_writeAll_empty (entries : List (Text × Text × Text)) (file name : Text) :
    (({} : MemoryStore).writeAll entries).read file name = lastText? entries file name := by
  rw [read_writeAll, read_empty, Option.or_none]

theorem lastText?_isSome {entries : List (Text × Text × Text)} {file name : Text} :
    (lastText? entries file name).isSome = true ↔ (file, name) ∈ entries.map place := by
  simp [lastText?, place, Prod.ext_iff]

section Listing

variable {s : MemoryStore}

theorem mem_toList {file name text : Text} :
    (file, name, text) ∈ s.toList ↔ s.read file name = some text := by
  simp only [toList, read, List.mem_flatMap, List.mem_map, Prod.mk.injEq, Prod.exists,
    Std.ExtTreeMap.mem_toList_iff_getElem?_eq_some, Option.bind_eq_some_iff]
  constructor
  · rintro ⟨f, names, hfile, n, t, hname, rfl, rfl, rfl⟩
    exact ⟨names, hfile, hname⟩
  · rintro ⟨names, hfile, hname⟩
    exact ⟨file, names, hfile, name, text, hname, rfl, rfl, rfl⟩

theorem mem_map_place_toList {file name : Text} :
    (file, name) ∈ s.toList.map place ↔ (s.read file name).isSome = true := by
  rw [Option.isSome_iff_exists, List.mem_map]
  constructor
  · rintro ⟨⟨f, n, text⟩, hmem, heq⟩
    obtain ⟨rfl, rfl⟩ := Prod.mk.inj heq
    exact ⟨text, mem_toList.1 hmem⟩
  · rintro ⟨text, hread⟩
    exact ⟨(file, name, text), mem_toList.2 hread, rfl⟩

theorem places_nodup (s : MemoryStore) : (s.toList.map place).Nodup := by
  rw [toList, List.map_flatMap, List.nodup_flatMap]
  constructor
  · intro p _
    rw [List.map_map, List.Nodup, List.pairwise_map]
    refine p.2.distinct_keys_toList.imp ?_
    intro q q' hne heq
    exact hne (by simpa [place] using heq)
  · refine s.files.distinct_keys_toList.imp ?_
    intro p p' hne
    show List.Disjoint _ _
    rw [List.disjoint_left]
    intro x h h'
    simp only [List.map_map, List.mem_map, Function.comp_apply, place] at h h'
    obtain ⟨q, -, rfl⟩ := h
    obtain ⟨q', -, heq⟩ := h'
    exact hne (by simp [(Prod.mk.inj heq).1])

theorem size_eq_card (s : MemoryStore) : s.size = (s.toList.map place).toFinset.card := by
  rw [List.toFinset_card_of_nodup s.places_nodup, List.length_map, size]

theorem size_eq_sum (s : MemoryStore) : s.size = (s.files.toList.map fun p => p.2.size).sum := by
  rw [size, toList, List.length_flatMap]
  simp only [List.length_map, Std.ExtTreeMap.length_toList]

theorem isEmpty_iff_size : s.isEmpty = true ↔ s.size = 0 := by
  rw [size_eq_sum, isEmpty, List.all_eq_true, List.sum_eq_zero_iff_forall_eq_nat,
    List.forall_mem_map]
  simp only [Std.ExtTreeMap.isEmpty_eq_size_beq_zero, beq_iff_eq]

end Listing

theorem size_eq_card_of_mem_iff {s : MemoryStore} {places : List (Text × Text)}
    (h : ∀ file name, (file, name) ∈ places ↔ (s.read file name).isSome = true) :
    s.size = places.toFinset.card := by
  rw [size_eq_card]
  congr 1
  ext ⟨file, name⟩
  rw [List.mem_toFinset, List.mem_toFinset, mem_map_place_toList, h]

/-- The store is what the writes of `entries` make of a flat map. -/
structure Flattens (entries : List (Text × Text × Text)) (s : MemoryStore) : Prop where
  read : ∀ file name, s.read file name = lastText? entries file name
  size : s.size = (entries.map place).toFinset.card
  isEmpty : s.isEmpty = true ↔ s.size = 0
  last : ∀ entries', (∀ file name, lastText? entries' file name = lastText? entries file name) →
    (∀ file name, (({} : MemoryStore).writeAll entries').read file name = s.read file name) ∧
      (({} : MemoryStore).writeAll entries').size = s.size

/-- After any writes to the empty store, each file and name has the text written there last, and the
size counts the files and names that were written, each once. -/
theorem writeAll_flattens (entries : List (Text × Text × Text)) :
    (({} : MemoryStore).writeAll entries).Flattens entries := by
  have hread := read_writeAll_empty entries
  constructor
  case read => exact hread
  case size =>
    apply size_eq_card_of_mem_iff
    intro file name
    rw [hread, lastText?_isSome]
  case isEmpty => exact isEmpty_iff_size
  case last =>
    intro entries' hlast
    have hsame : ∀ file name, (({} : MemoryStore).writeAll entries').read file name =
        (({} : MemoryStore).writeAll entries).read file name := by
      intro file name
      rw [read_writeAll_empty, hread, hlast]
    refine ⟨hsame, ?_⟩
    rw [size_eq_card (writeAll {} entries)]
    apply size_eq_card_of_mem_iff
    intro file name
    rw [hsame, mem_map_place_toList]

def rewrittenSnapshots : List (Text × Text × Text) :=
  [(['f'], ['n'], ['A']), (['g'], ['n'], ['B']), (['f'], ['n'], ['C'])]

theorem rewrittenSnapshots_flattened :
    (({} : MemoryStore).writeAll rewrittenSnapshots).read ['f'] ['n'] = some ['C'] ∧
    (({} : MemoryStore).writeAll rewrittenSnapshots).read ['g'] ['n'] = some ['B'] ∧
    (({} : MemoryStore).writeAll rewrittenSnapshots).read ['n'] ['f'] = none ∧
    (({} : MemoryStore).writeAll rewrittenSnapshots).size = 2 ∧
    (({} : MemoryStore).writeAll rewrittenSnapshots.tail.reverse).size =
      (({} : MemoryStore).writeAll rewrittenSnapshots).size := by
  have h := writeAll_flattens rewrittenSnapshots
  have hlast : ∀ file name, lastText? rewrittenSnapshots.tail.reverse file name =
      lastText? rewrittenSnapshots file name := by
    intro file name
    by_cases hf : ['f'] = file
    · subst hf
      by_cases hn : ['n'] = name <;> simp [lastText?, rewrittenSnapshots, hn]
    · simp [lastText?, rewrittenSnapshots, List.find?_cons, hf]
  exact ⟨h.read _ _, h.read _ _, h.read _ _, h.size, (h.last _ hlast).2⟩

end MemoryStore
end TypeComments
