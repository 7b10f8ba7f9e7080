import PagedHeap.Proofs.Page.Space

/-!
# The capacity that a refusal states

A refused insertion states a capacity: the bytes that are left on the page, less the size of a new
slot.  On a page without a free slot that is the largest row that goes in, unless not even an empty
row does; and then the refused row may be one that is not larger.  On a page with a free slot larger
rows go in than the refusal says, as long as any byte is left.
-/

namespace PagedHeap

namespace SlotTable

/-- The bytes of the page that header, directory and rows leave. -/
def freeBytes (t : SlotTable) : Nat :=
  pageSize - headerSize - slotSize * t.length - t.liveBytes

theorem fits_iff_freeBytes {t : SlotTable} (size : Nat)
    (htotal : headerSize + slotSize * t.length + t.liveBytes ≤ pageSize) :
    t.Fits size ↔ size + (if none ∈ t then 0 else slotSize) ≤ t.freeBytes := by
  rw [fits_iff, slotsNeeded, freeBytes]
  split <;> simp only [headerSize, slotSize, pageSize] at htotal ⊢ <;> omega

end SlotTable

namespace Image

variable {img img' : Image} {row : Row} {size capacity : Nat}

/-- A row of this size goes in. -/
def Takes (img : Image) (size : Nat) : Prop :=
  ∀ row : Row, row.length = size → ∃ slot img', (insert row).on img = (.ok (.ok slot), img')

def Refuses (img : Image) (size : Nat) : Prop :=
  ∀ row : Row, row.length = size →
    ∃ capacity, (insert row).on img = (.ok (.error (.rowTooLarge size capacity)), img)

/-- The refused row is larger than the stated capacity, which is the size of the largest row that
goes in. -/
def StatesCapacity (img : Image) (size capacity : Nat) : Prop :=
  capacity < size ∧ (∀ m ≤ capacity, img.Takes m) ∧ ∀ m, capacity < m → img.Refuses m

/-- What the capacity stated to a refused row is worth on a page with the slots of `t`. -/
structure Refusal (img : Image) (t : SlotTable) (row : Row) (size capacity : Nat) : Prop where
  size_eq : size = row.length
  capacity_eq : capacity = t.freeBytes - slotSize
  exceeds_iff : capacity < size ↔ row ≠ [] ∨ none ∈ t ∨ slotSize ≤ t.freeBytes
  within_iff : (∀ m ≤ capacity, img.Takes m) ↔ none ∈ t ∨ slotSize ≤ t.freeBytes
  beyond_iff : (∀ m, capacity < m → img.Refuses m) ↔ none ∉ t ∨ t.freeBytes = 0
  statesCapacity_iff : img.StatesCapacity size capacity ↔
    if none ∈ t then t.freeBytes = 0 else slotSize ≤ t.freeBytes

theorem insert_fits (edits : List Edit) (hfits : (Edit.tableAfter edits).Fits row.length) :
    ∃ slot img', (insert row).on (Edit.imageAfter edits) = (.ok (.ok slot), img') := by
  obtain ⟨hlayout, hslots⟩ := layout_imageAfter edits
  obtain ⟨img', hon, -, -⟩ := hlayout.on_insert (hslots ▸ hfits)
  exact ⟨_, img', hon⟩

theorem insert_unfit (edits : List Edit) (hfits : ¬ (Edit.tableAfter edits).Fits row.length) :
    (insert row).on (Edit.imageAfter edits) = (.ok (.error (.rowTooLarge row.length
      ((Edit.tableAfter edits).freeBytes - slotSize))), Edit.imageAfter edits) := by
  obtain ⟨hlayout, hslots⟩ := layout_imageAfter edits
  rw [hlayout.on_insert_refused (hslots ▸ hfits), ← length_slots, hslots,
    ← SlotTable.liveBytes_eq_rowBytes]
  rfl

theorem takes_iff (edits : List Edit) :
    (Edit.imageAfter edits).Takes size ↔ (Edit.tableAfter edits).Fits size := by
  constructor
  · intro htakes
    by_contra hfits
    have hlength : (List.replicate size (0 : UInt8)).length = size := List.length_replicate
    obtain ⟨slot, img', hon⟩ := htakes _ hlength
    rw [← hlength] at hfits
    rw [insert_unfit edits hfits] at hon
    cases congrArg Prod.fst hon
  · rintro hfits row rfl
    exact insert_fits edits hfits

theorem refuses_iff (edits : List Edit) :
    (Edit.imageAfter edits).Refuses size ↔ ¬ (Edit.tableAfter edits).Fits size := by
  constructor
  · intro hrefuses hfits
    have hlength : (List.replicate size (0 : UInt8)).length = size := List.length_replicate
    obtain ⟨capacity, hrefused⟩ := hrefuses _ hlength
    obtain ⟨slot, img', hon⟩ := takes_iff edits |>.mpr hfits _ hlength
    rw [hrefused] at hon
    cases congrArg Prod.fst hon
  · rintro hfits row rfl
    exact ⟨_, insert_unfit edits hfits⟩

theorem total_tableAfter (edits : List Edit) :
    headerSize + slotSize * (Edit.tableAfter edits).length + (Edit.tableAfter edits).liveBytes ≤
      pageSize := by
  obtain ⟨hlayout, hslots⟩ := layout_imageAfter edits
  have hfits := hlayout.fits
  have hbytes := hlayout.rowBytes_le
  rw [← hslots, SlotTable.liveBytes_eq_rowBytes, length_slots]
  omega

/-- Whether a row goes in depends on its size and on nothing else about it. -/
theorem fits_tableAfter (edits : List Edit) (size : Nat) :
    (Edit.tableAfter edits).Fits size ↔
      size + (if none ∈ Edit.tableAfter edits then 0 else slotSize) ≤
        (Edit.tableAfter edits).freeBytes :=
  SlotTable.fits_iff_freeBytes size (total_tableAfter edits)

theorem forall_takes_iff (edits : List Edit) :
    (∀ m ≤ (Edit.tableAfter edits).freeBytes - slotSize, (Edit.imageAfter edits).Takes m) ↔
      none ∈ Edit.tableAfter edits ∨ slotSize ≤ (Edit.tableAfter edits).freeBytes := by
  simp only [takes_iff, fits_tableAfter]
  generalize (Edit.tableAfter edits).freeBytes = free
  by_cases hfree : none ∈ Edit.tableAfter edits
  · simp only [hfree, if_true, true_or, iff_true]
    omega
  · simp only [hfree, if_false, false_or]
    constructor
    · -- an empty row is within every capacity, and it needs a slot
      intro hall
      exact Nat.le_of_add_left_le (hall 0 (Nat.zero_le _))
    · intro hroom m hm
      omega

theorem forall_refuses_iff (edits : List Edit) :
    (∀ m, (Edit.tableAfter edits).freeBytes - slotSize < m → (Edit.imageAfter edits).Refuses m) ↔
      none ∉ Edit.tableAfter edits ∨ (Edit.tableAfter edits).freeBytes = 0 := by
  simp only [refuses_iff, fits_tableAfter]
  generalize (Edit.tableAfter edits).freeBytes = free
  by_cases hfree : none ∈ Edit.tableAfter edits
  · simp only [hfree, if_true, not_true, false_or]
    constructor
    · -- with a free slot, a row may take up all free bytes
      intro hall
      by_contra hbytes
      exact hall free (by simp only [slotSize]; omega) (Nat.le_refl _)
    · intro hnone m hm
      omega
  · simp only [hfree, if_false, not_false_eq_true, true_or, iff_true]
    intro m hm
    omega

theorem exceeds_iff (edits : List Edit) (hunfit : ¬ (Edit.tableAfter edits).Fits row.length) :
    (Edit.tableAfter edits).freeBytes - slotSize < row.length ↔
      row ≠ [] ∨ none ∈ Edit.tableAfter edits ∨
        slotSize ≤ (Edit.tableAfter edits).freeBytes := by
  rw [fits_tableAfter] at hunfit
  rw [← List.length_pos_iff]
  by_cases hfree : none ∈ Edit.tableAfter edits
  · simp only [hfree, if_true] at hunfit
    simp only [hfree, true_or, or_true, iff_true]
    omega
  · simp only [hfree, if_false] at hunfit
    simp only [hfree, false_or]
    omega

/-- A refused insertion changes nothing and states the size of the row.  The capacity that it states
is the size of the largest row that goes in, and smaller than the refused one, exactly when there
is no free slot but room for one, or a free slot and no free byte. -/
theorem refusal_of_rowTooLarge (edits : List Edit) (row : Row)
    (h : (insert row).on (Edit.imageAfter edits) =
      (.ok (.error (.rowTooLarge size capacity)), img')) :
    img' = Edit.imageAfter edits ∧
      Refusal (Edit.imageAfter edits) (Edit.tableAfter edits) row size capacity := by
  have hunfit : ¬ (Edit.tableAfter edits).Fits row.length := by
    intro hfits
    obtain ⟨slot, img₁, hon⟩ := insert_fits edits hfits
    cases congrArg Prod.fst (hon.symm.trans h)
  have hrefused := (insert_unfit edits hunfit).symm.trans h
  simp only [Prod.mk.injEq, Except.ok.injEq, Except.error.injEq, Error.rowTooLarge.injEq]
    at hrefused
  obtain ⟨⟨rfl, rfl⟩, rfl⟩ := hrefused
  have hexceeds := exceeds_iff edits hunfit
  have hwithin := forall_takes_iff edits
  have hbeyond := forall_refuses_iff edits
  refine ⟨rfl, rfl, rfl, hexceeds, hwithin, hbeyond, ?_⟩
  rw [StatesCapacity, hexceeds, hwithin, hbeyond]
  by_cases hfree : none ∈ Edit.tableAfter edits
  · simp [hfree]
  · simp only [hfree, if_false, false_or, not_false_eq_true, true_or, and_true]
    exact ⟨And.right, fun hroom => ⟨Or.inr hroom, hroom⟩⟩

theorem tableAfter_singleton (hfits : SlotTable.Fits [] row.length) :
    Edit.tableAfter [.insert row] = [some row] :=
  if_pos hfits

/-- One row of the largest size. -/
def filled : List Edit :=
  [.insert (List.replicate maxRowSize 7)]

theorem tableAfter_filled : Edit.tableAfter filled = [some (List.replicate maxRowSize 7)] := by
  apply tableAfter_singleton
  rw [List.length_replicate]
  decide

theorem freeBytes_filled : (Edit.tableAfter filled).freeBytes = 0 := by
  rw [tableAfter_filled, SlotTable.freeBytes, SlotTable.liveBytes_eq_rowBytes,
    SlotTable.rowBytes_cons, SlotTable.rowLength, Option.map_some, Option.getD_some,
    List.length_replicate]
  rfl

/-- On a full page an empty row is refused for want of a slot, and the stated capacity is 0. -/
theorem refusal_of_rowTooLarge_filled :
    (insert []).on (Edit.imageAfter filled) =
        (.ok (.error (.rowTooLarge 0 0)), Edit.imageAfter filled) ∧
      Refusal (Edit.imageAfter filled) (Edit.tableAfter filled) [] 0 0 := by
  have hunfit : ¬ (Edit.tableAfter filled).Fits ([] : Row).length := by
    rw [fits_tableAfter, freeBytes_filled, tableAfter_filled, if_neg (by simp)]
    decide
  have hrefused := insert_unfit filled hunfit
  rw [freeBytes_filled] at hrefused
  exact ⟨hrefused, (refusal_of_rowTooLarge filled [] hrefused).2⟩

/-- A slot that is free again. -/
def vacated : List Edit :=
  [.insert [], .delete ⟨0⟩]

/-- One slot is free, and a row of 4088 bytes goes in; but a larger one is refused with a stated
capacity of 4084 bytes. -/
theorem capacity_understated :
    (insert (List.replicate 4089 0)).on (Edit.imageAfter vacated) =
        (.ok (.error (.rowTooLarge 4089 4084)), Edit.imageAfter vacated) ∧
      (∃ slot img', (insert (List.replicate 4088 0)).on (Edit.imageAfter vacated) =
        (.ok (.ok slot), img')) ∧
      ¬ (Edit.imageAfter vacated).StatesCapacity 4089 4084 := by
  have htable : Edit.tableAfter vacated = [none] := by decide
  have hunfit : ¬ (Edit.tableAfter vacated).Fits (List.replicate 4089 (0 : UInt8)).length := by
    rw [htable, List.length_replicate]
    decide
  have hfits : (Edit.tableAfter vacated).Fits 4088 := by
    rw [htable]
    decide
  have hfree : (Edit.tableAfter vacated).freeBytes = 4088 := by
    rw [htable]
    decide
  have hrefused := insert_unfit vacated hunfit
  rw [hfree, List.length_replicate] at hrefused
  refine ⟨hrefused, (takes_iff vacated).mpr hfits _ List.length_replicate, ?_⟩
  rintro ⟨-, -, hbeyond⟩
  exact (refuses_iff vacated).mp (hbeyond 4088 (by decide)) hfits

end Image

end PagedHeap
