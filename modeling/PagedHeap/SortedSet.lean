import PagedHeap.SortedMap

/-!
# Sets in key order

A set is the list of its members in strictly ascending order; equal sets have equal lists.
-/

namespace PagedHeap

variable {κ : Type} [Ranked κ]

/-- A finite set, kept as a map that has nothing to tell about its keys. -/
structure SortedSet (κ : Type) [Ranked κ] where
  members : SortedMap κ Unit

namespace SortedSet

def empty : SortedSet κ := ⟨∅⟩

instance : EmptyCollection (SortedSet κ) := ⟨empty⟩

instance : Inhabited (SortedSet κ) := ⟨∅⟩

def contains (s : SortedSet κ) (k : κ) : Bool :=
  s.members.contains k

instance : Membership κ (SortedSet κ) := ⟨fun s k => s.contains k = true⟩

instance (s : SortedSet κ) (k : κ) : Decidable (k ∈ s) :=
  inferInstanceAs (Decidable (s.contains k = true))

def insert (s : SortedSet κ) (k : κ) : SortedSet κ :=
  ⟨s.members.insert k ()⟩

def erase (s : SortedSet κ) (k : κ) : SortedSet κ :=
  ⟨s.members.erase k⟩

def toList (s : SortedSet κ) : List κ :=
  s.members.keys

def ofList (l : List κ) : SortedSet κ :=
  l.foldl insert ∅

def size (s : SortedSet κ) : Nat :=
  s.members.size

def isEmpty (s : SortedSet κ) : Bool :=
  s.members.isEmpty

def subset (s t : SortedSet κ) : Bool :=
  s.toList.all t.contains

theorem mem_iff {s : SortedSet κ} {k : κ} : k ∈ s ↔ s.contains k = true := Iff.rfl

theorem mem_iff_get? {s : SortedSet κ} {k : κ} : k ∈ s ↔ s.members.get? k = some () := by
  change (s.members.get? k).isSome = true ↔ _
  cases s.members.get? k <;> simp

@[ext] theorem ext_mem {s t : SortedSet κ} (h : ∀ k, k ∈ s ↔ k ∈ t) : s = t := by
  obtain ⟨m⟩ := s
  obtain ⟨n⟩ := t
  congr 1
  ext k u
  have := h k
  simpa [mem_iff_get?] using this

@[simp] theorem not_mem_empty (k : κ) : k ∉ (∅ : SortedSet κ) := by
  intro h
  exact Bool.noConfusion h

@[simp] theorem mem_insert {s : SortedSet κ} {k j : κ} : j ∈ s.insert k ↔ k = j ∨ j ∈ s := by
  classical
  simp only [mem_iff_get?, insert, SortedMap.get?_insert]
  by_cases h : k = j <;> simp [h]

@[simp] theorem mem_erase {s : SortedSet κ} {k j : κ} : j ∈ s.erase k ↔ k ≠ j ∧ j ∈ s := by
  classical
  simp only [mem_iff_get?, erase, SortedMap.get?_erase]
  by_cases h : k = j <;> simp [h]

@[simp] theorem mem_toList {s : SortedSet κ} {k : κ} : k ∈ s.toList ↔ k ∈ s :=
  SortedMap.mem_keys

@[simp] theorem mem_ofList {l : List κ} {k : κ} : k ∈ ofList l ↔ k ∈ l := by
  have go : ∀ (l : List κ) (s : SortedSet κ), k ∈ l.foldl insert s ↔ k ∈ l ∨ k ∈ s := by
    intro l
    induction l with
    | nil => simp
    | cons a rest ih =>
      intro s
      rw [List.foldl_cons, ih, mem_insert, List.mem_cons]
      grind
  simpa [ofList] using go l ∅

theorem length_toList (s : SortedSet κ) : s.toList.length = s.size := by
  simp [toList, size, SortedMap.keys, SortedMap.size]

theorem toList_ascending (s : SortedSet κ) : s.toList.Pairwise fun a b => rank a < rank b :=
  s.members.keys_ascending

@[simp] theorem subset_iff {s t : SortedSet κ} : s.subset t = true ↔ ∀ k, k ∈ s → k ∈ t := by
  simp [subset, List.all_eq_true, mem_iff]

theorem isEmpty_iff {s : SortedSet κ} : s.isEmpty = true ↔ ∀ k, k ∉ s := by
  simp only [← mem_toList, toList, SortedMap.keys, isEmpty, SortedMap.isEmpty]
  cases s.members.entries with
  | nil => simp
  | cons head rest =>
    simp only [List.isEmpty_cons, Bool.false_eq_true, List.map_cons, List.mem_cons, false_iff]
    exact fun h => h head.1 (Or.inl rfl)

end SortedSet

end PagedHeap
