import PagedHeap.Proofs.Page.Edits

/-!
# A page is a slot table

A page that starts blank and is changed by insertions, deletions and compactions only is told apart
from its slot table by nothing but the free bytes it still counts as one gap: the same edits on the
table alone give the same table, and every operation and query answers from it, without a fault.
-/

namespace PagedHeap

inductive Edit where
  | insert (row : Row)
  | delete (slot : SlotId)
  | compact

namespace Edit

/-- The page after an edit, whether or not the edit was accepted. -/
def onImage : Edit → Image → Image
  | insert row, img => ((Image.insert row).on img).2
  | delete slot, img => ((Image.delete slot).on img).2
  | compact, img => img.compact.toOption.getD img

def onTable : Edit → SlotTable → SlotTable
  | insert row, t => if t.Fits row.length then t.put row else t
  | delete slot, t => t.set slot.toNat none
  | compact, t => t

def imageAfter (edits : List Edit) : Image :=
  edits.foldl (fun img e => e.onImage img) Image.blank

def tableAfter (edits : List Edit) : SlotTable :=
  edits.foldl (fun t e => e.onTable t) []

end Edit

namespace SlotId

theorem toNat_ofNat {n : Nat} (h : n < 65536) : (ofNat n).toNat = n := by
  simp only [ofNat, toNat, UInt16.toNat_ofNat']
  exact Nat.mod_eq_of_lt h

end SlotId

namespace SlotTable

theorem set_none_of_not_occupied {t : SlotTable} {slot : Nat}
    (h : t[slot]? = none ∨ t[slot]? = some none) : t.set slot none = t := by
  apply List.ext_getElem?
  intro s
  rw [List.getElem?_set]
  by_cases heq : slot = s
  · subst heq
    rcases h with h | h
    · rw [if_pos rfl, h, if_neg (Nat.not_lt.mpr (List.getElem?_eq_none_iff.mp h))]
    · rw [if_pos rfl, h, if_pos (List.getElem?_eq_some_iff.mp h).1]
  · rw [if_neg heq]

end SlotTable

namespace Image

/-- Every operation and every query on the page answers as its slot table says, and none faults. -/
structure IsSlotTable (img : Image) (t : SlotTable) : Prop where
  slots_eq : img.slots = t
  slotCount_eq : img.slotCount = t.length
  insert_accepted : ∀ row : Row, t.Fits row.length →
    ∃ slot img', (insert row).on img = (.ok (.ok slot), img') ∧ slot.toNat = t.firstFree ∧
      img'.slots = t.put row
  insert_refused : ∀ row : Row, ¬ t.Fits row.length →
    ∃ capacity, (insert row).on img = (.ok (.error (.rowTooLarge row.length capacity)), img)
  delete_occupied : ∀ slot row, t[slot.toNat]? = some (some row) →
    ∃ img', (delete slot).on img = (.ok (.ok ()), img') ∧ img'.slots = t.set slot.toNat none
  delete_free : ∀ slot, t[slot.toNat]? = some none →
    (delete slot).on img = (.ok (.error (.emptySlot slot)), img)
  delete_beyond : ∀ slot, t.length ≤ slot.toNat →
    (delete slot).on img = (.ok (.error (.noSlot slot)), img)
  compact : ∃ img', img.compact = .ok img' ∧ img'.slots = t
  row_occupied : ∀ slot row, t[slot.toNat]? = some (some row) → img.row slot = .ok (.ok row)
  row_free : ∀ slot, t[slot.toNat]? = some none → img.row slot = .ok (.error (.emptySlot slot))
  row_beyond : ∀ slot, t.length ≤ slot.toNat → img.row slot = .ok (.error (.noSlot slot))
  rows : img.rows = .ok (t.rows.map fun (slot, row) => (SlotId.ofNat slot, row))
  rowCount : img.rowCount = .ok t.rows.length
  hasRoom : ∀ size, size + slotSize < Checked.wordBound →
    img.hasRoom size = .ok (decide (t.Fits size))
  gap : ∃ free, img.gap = .ok free

namespace Layout

variable {img : Image}

theorem firstFree_lt (h : Layout img) : img.slots.firstFree < 65536 := by
  have hle := img.slots.firstFree_le_length
  have hcount := h.slotCount_le
  rw [length_slots] at hle
  omega

theorem isSlotTable (h : Layout img) : img.IsSlotTable img.slots where
  slots_eq := rfl
  slotCount_eq := img.length_slots.symm
  insert_accepted row hfits := by
    obtain ⟨img', hon, -, hslots⟩ := h.on_insert hfits
    exact ⟨_, img', hon, SlotId.toNat_ofNat h.firstFree_lt, hslots⟩
  insert_refused row hfits := ⟨_, h.on_insert_refused hfits⟩
  delete_occupied slot row hget := by
    have hslot : slot.toNat < img.slotCount := by
      rw [← length_slots]
      exact (List.getElem?_eq_some_iff.mp hget).1
    exact ⟨_, by rw [on_delete h, hget], (h.free hslot).2⟩
  delete_free slot hget := by rw [on_delete h, hget]
  delete_beyond slot hle := by rw [on_delete h, List.getElem?_eq_none hle]
  compact := by
    obtain ⟨img', hcompact, -, hslots, -⟩ := h.compact_eq
    exact ⟨img', hcompact, hslots⟩
  row_occupied slot row hget := by rw [h.row_eq, hget]
  row_free slot hget := by rw [h.row_eq, hget]
  row_beyond slot hle := by rw [h.row_eq, List.getElem?_eq_none hle]
  rows := h.rows_eq
  rowCount := h.rowCount_eq
  hasRoom _ hsize := h.hasRoom_eq hsize
  gap := ⟨_, h.gap_eq⟩

/-- One edit keeps the layout and is the same edit of the slot table. -/
theorem onImage (h : Layout img) (e : Edit) :
    Layout (e.onImage img) ∧ (e.onImage img).slots = e.onTable img.slots := by
  cases e with
  | insert row =>
    by_cases hfits : img.slots.Fits row.length
    · obtain ⟨img', hon, hlayout, hslots⟩ := h.on_insert hfits
      rw [Edit.onImage, Edit.onTable, hon, if_pos hfits]
      exact ⟨hlayout, hslots⟩
    · rw [Edit.onImage, Edit.onTable, h.on_insert_refused hfits, if_neg hfits]
      exact ⟨h, rfl⟩
  | delete slot =>
    rw [Edit.onImage, Edit.onTable, on_delete h]
    rcases hget : img.slots[slot.toNat]? with _ | _ | row
    · exact ⟨h, (SlotTable.set_none_of_not_occupied (Or.inl hget)).symm⟩
    · exact ⟨h, (SlotTable.set_none_of_not_occupied (Or.inr hget)).symm⟩
    · apply h.free
      rw [← length_slots]
      exact (List.getElem?_eq_some_iff.mp hget).1
  | compact =>
    obtain ⟨img', hcompact, hlayout, hslots, -⟩ := h.compact_eq
    rw [Edit.onImage, Edit.onTable, hcompact]
    exact ⟨hlayout, hslots⟩

end Layout

theorem layout_imageAfter (edits : List Edit) :
    Layout (Edit.imageAfter edits) ∧ (Edit.imageAfter edits).slots = Edit.tableAfter edits := by
  have go : ∀ (edits : List Edit) (img : Image) (t : SlotTable), Layout img → img.slots = t →
      Layout (edits.foldl (fun img e => e.onImage img) img) ∧
        (edits.foldl (fun img e => e.onImage img) img).slots =
          edits.foldl (fun t e => e.onTable t) t := by
    intro edits
    induction edits with
    | nil => exact fun img t h ht => ⟨h, ht⟩
    | cons e rest ih =>
      intro img t h ht
      obtain ⟨hlayout, hslots⟩ := h.onImage e
      exact ih _ _ hlayout (hslots.trans (congrArg e.onTable ht))
  exact go edits blank [] layout_blank.1 layout_blank.2

/-- Whatever edits made a page, it is the slot table that the same edits make. -/
theorem isSlotTable_imageAfter (edits : List Edit) :
    (Edit.imageAfter edits).IsSlotTable (Edit.tableAfter edits) := by
  obtain ⟨hlayout, hslots⟩ := layout_imageAfter edits
  exact hslots ▸ hlayout.isSlotTable

/-- A deleted row's slot is the next to be filled; the other rows keep theirs. -/
example : Edit.tableAfter [.insert [1], .insert [2], .delete ⟨0⟩, .compact, .insert [3]] =
    [some [3], some [2]] := by decide

end Image

end PagedHeap
