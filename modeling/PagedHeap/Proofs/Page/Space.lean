import Mathlib.Algebra.Ring.Nat
import PagedHeap.Proofs.Page.History

/-!
# The space on a page

However its rows came and went, a page counts its bytes exactly.  A row finds room when, with its
slot, it fits beside the header, the directory and the rows that are there; the bytes of deleted rows
never stand in its way, nor does the limit on the size of a row.  Compaction leaves all free bytes
in one gap.
-/

namespace PagedHeap

theorem totalLength_eq_sum (found : List (Nat × Row)) :
    totalLength found = (found.map fun (_, row) => row.length).sum := by
  induction found with
  | nil => rfl
  | cons p rest ih => rw [totalLength_cons, List.map_cons, List.sum_cons, ih]

namespace SlotTable

theorem firstFree_lt_length_iff (t : SlotTable) : t.firstFree < t.length ↔ none ∈ t := by
  rw [firstFree, List.findIdx_lt_length]
  constructor
  · rintro ⟨r, hr, hnone⟩
    exact Option.isNone_iff_eq_none.mp hnone ▸ hr
  · exact fun h => ⟨none, h, rfl⟩

/-- The bytes of all rows of the table together. -/
def liveBytes (t : SlotTable) : Nat :=
  (t.rows.map fun (_, row) => row.length).sum

theorem liveBytes_eq_rowBytes (t : SlotTable) : t.liveBytes = t.rowBytes := by
  rw [liveBytes, ← totalLength_eq_sum, totalLength_rows]

/-- The slots that the directory has once one more row is in the table. -/
def slotsNeeded (t : SlotTable) : Nat :=
  if none ∈ t then t.length else t.length + 1

theorem fits_iff (t : SlotTable) (size : Nat) :
    t.Fits size ↔ headerSize + slotSize * t.slotsNeeded + t.liveBytes + size ≤ pageSize := by
  simp only [Fits, slotsNeeded, liveBytes_eq_rowBytes, firstFree_lt_length_iff]

end SlotTable

namespace Image

/-- The space that the page reports is that of the rows of `t`: what there is room for, what an
insertion makes of it, and what compaction leaves free. -/
structure AccountsFor (img : Image) (t : SlotTable) : Prop where
  slotCount_eq : img.slotCount = t.length
  rows_eq : img.rows = .ok (t.rows.map fun (slot, row) => (SlotId.ofNat slot, row))
  hasRoom_eq : ∀ size < 2 ^ 63, img.hasRoom size =
    .ok (decide (headerSize + slotSize * t.slotsNeeded + t.liveBytes + size ≤ pageSize))
  size_limit_idle : ∀ row : Row, row.length < 2 ^ 63 → img.accepts row = img.hasRoom row.length
  /-- Where there is room the row goes in, and the page is then the table with the row. -/
  inserted : ∀ row : Row, row.length < 2 ^ 63 → img.hasRoom row.length = .ok true →
    ∃ slot img', (insert row).on img = (.ok (.ok slot), img') ∧ slot.toNat = t.firstFree ∧
      img'.IsSlotTable (t.put row)
  refused : ∀ row : Row, row.length < 2 ^ 63 → img.hasRoom row.length = .ok false →
    (insert row).on img = (.ok (.error (.rowTooLarge row.length
      (pageSize - headerSize - slotSize * t.length - t.liveBytes - slotSize))), img)
  /-- After compaction the gap is all that header, directory and rows leave of the page. -/
  compacted : ∃ img' free, img.compact = .ok img' ∧ img'.IsSlotTable t ∧ img'.gap = .ok free ∧
    headerSize + slotSize * t.length + t.liveBytes + free = pageSize

namespace Layout

variable {img : Image}

theorem hasRoom_of_lt (h : Layout img) {size : Nat} (hsize : size < 2 ^ 63) :
    img.hasRoom size = .ok (decide (img.slots.Fits size)) :=
  h.hasRoom_eq (by simp only [slotSize, Checked.wordBound, UInt64.size]; omega)

theorem gap_of_dense (h : Layout img) (hdense : img.dataLength = img.slots.liveBytes) :
    ∃ free, img.gap = .ok free ∧
      headerSize + slotSize * img.slots.length + img.slots.liveBytes + free = pageSize := by
  refine ⟨_, h.gap_eq, ?_⟩
  have := h.fits
  rw [length_slots]
  omega

theorem accountsFor (h : Layout img) : img.AccountsFor img.slots where
  slotCount_eq := img.length_slots.symm
  rows_eq := h.rows_eq
  hasRoom_eq size hsize := by simp only [h.hasRoom_of_lt hsize, SlotTable.fits_iff]
  size_limit_idle row hlength := by rw [h.accepts_eq, h.hasRoom_of_lt hlength]
  inserted row _ hroom := by
    obtain ⟨img', hon, hlayout, hslots⟩ := h.on_insert (h.fits_of_hasRoom hroom)
    exact ⟨_, img', hon, SlotId.toNat_ofNat h.firstFree_lt, hslots ▸ hlayout.isSlotTable⟩
  refused row hlength hroom := by
    have hfits : ¬ img.slots.Fits row.length := by
      rw [h.hasRoom_of_lt hlength] at hroom
      exact of_decide_eq_false (Except.ok.inj hroom)
    rw [h.on_insert_refused hfits, length_slots, SlotTable.liveBytes_eq_rowBytes]
  compacted := by
    obtain ⟨img', hcompact, hlayout, hslots, hdata⟩ := h.compact_eq
    obtain ⟨free, hgap, htotal⟩ := hlayout.gap_of_dense (by
      rw [hdata, hslots, SlotTable.liveBytes_eq_rowBytes])
    rw [hslots] at htotal
    exact ⟨img', free, hcompact, hslots ▸ hlayout.isSlotTable, hgap, htotal⟩

end Layout

/-- Whatever edits made a page, it counts its bytes as the slot table that the same edits make. -/
theorem accountsFor_imageAfter (edits : List Edit) :
    (Edit.imageAfter edits).AccountsFor (Edit.tableAfter edits) := by
  obtain ⟨hlayout, hslots⟩ := layout_imageAfter edits
  exact hslots ▸ hlayout.accountsFor

end Image

end PagedHeap
