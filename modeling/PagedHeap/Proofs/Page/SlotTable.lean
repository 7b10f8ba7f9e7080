import PagedHeap.Proofs.Page.Bytes

/-!
# The slot table of a page

Seen from above, a page is a list of slots, each of them free or holding a row.  `Image.slots` reads
that list off the bytes, and `Layout` says which bytes are those of a page in order: the directory
does not meet the row data, every row lies in the row data, and the length of the row data covers
the rows.  On such a page every query answers what the slot table says.
-/

namespace PagedHeap

abbrev SlotTable := List (Option Row)

namespace SlotTable

def rowLength (r : Option Row) : Nat :=
  (r.map List.length).getD 0

/-- The bytes that the rows take up, those of deleted rows not counted. -/
def rowBytes (t : SlotTable) : Nat :=
  t.foldr (fun r total => rowLength r + total) 0

/-- The lowest free slot, or the one behind the last. -/
def firstFree (t : SlotTable) : Nat :=
  t.findIdx Option.isNone

/-- The table with a row in the lowest free slot, or in a new last one. -/
def put (t : SlotTable) (row : Row) : SlotTable :=
  if t.firstFree < t.length then t.set t.firstFree (some row) else t ++ [some row]

/-- A row of this size finds its bytes, and its slot, beside the rows of the table. -/
def Fits (t : SlotTable) (size : Nat) : Prop :=
  headerSize + slotSize * (if t.firstFree < t.length then t.length else t.length + 1) +
    t.rowBytes + size ≤ pageSize

instance (t : SlotTable) (size : Nat) : Decidable (t.Fits size) :=
  inferInstanceAs (Decidable (_ ≤ _))

/-- The rows under their slots, in slot order. -/
def rows (t : SlotTable) : List (Nat × Row) :=
  t.zipIdx.filterMap fun (r, slot) => r.map (Prod.mk slot)

theorem firstFree_le_length (t : SlotTable) : t.firstFree ≤ t.length :=
  List.findIdx_le_length

theorem getElem?_firstFree {t : SlotTable} (h : t.firstFree < t.length) :
    t[t.firstFree]? = some none := by
  have hfree : (t.get ⟨t.firstFree, h⟩).isNone = true := List.findIdx_getElem
  exact (List.getElem?_eq_getElem h).trans (congrArg some (Option.isNone_iff_eq_none.mp hfree))

@[simp] theorem rowBytes_nil : rowBytes [] = 0 := rfl

@[simp] theorem rowBytes_cons (r : Option Row) (t : SlotTable) :
    rowBytes (r :: t) = rowLength r + t.rowBytes := rfl

@[simp] theorem rowBytes_append (t u : SlotTable) :
    rowBytes (t ++ u) = t.rowBytes + rowBytes u := by
  induction t with
  | nil => simp
  | cons r rest ih => simp [ih, Nat.add_assoc]

theorem rowBytes_set (t : SlotTable) {slot : Nat} {old : Option Row} (h : t[slot]? = some old)
    (new : Option Row) :
    rowBytes (t.set slot new) + rowLength old = t.rowBytes + rowLength new := by
  induction t generalizing slot with
  | nil => simp at h
  | cons r rest ih =>
    cases slot with
    | zero =>
      obtain rfl : r = old := by simpa using h
      simp only [List.set_cons_zero, rowBytes_cons]
      omega
    | succ slot =>
      have := ih (show rest[slot]? = some old by simpa using h)
      simp only [List.set_cons_succ, rowBytes_cons]
      omega

theorem rowBytes_put (t : SlotTable) (row : Row) :
    (t.put row).rowBytes = t.rowBytes + row.length := by
  rw [put]
  split
  case isTrue h =>
    have := t.rowBytes_set (getElem?_firstFree h) (some row)
    simpa [rowLength] using this
  case isFalse => simp [rowLength]

theorem getElem?_put (t : SlotTable) (row : Row) (slot : Nat) :
    (t.put row)[slot]? = if slot = t.firstFree then some (some row) else t[slot]? := by
  rw [put]
  split
  case isTrue h =>
    rw [List.getElem?_set]
    by_cases hslot : slot = t.firstFree
    · simp [hslot, h]
    · simp [hslot, Ne.symm hslot]
  case isFalse h =>
    have hend : t.firstFree = t.length := Nat.le_antisymm t.firstFree_le_length (Nat.not_lt.mp h)
    rw [hend]
    rcases Nat.lt_trichotomy slot t.length with hslot | hslot | hslot
    · rw [List.getElem?_append_left hslot, if_neg (by omega)]
    · simp [hslot]
    · have hlength : (t ++ [some row]).length ≤ slot := by
        simpa using Nat.succ_le_of_lt hslot
      rw [if_neg (by omega), List.getElem?_eq_none hlength, List.getElem?_eq_none (by omega)]

end SlotTable

namespace Image

def slotAt (img : Image) (slot : Nat) : Option Row :=
  let e := img.entryAt slot
  if e.isFree then none else some (img.sliceAt e.start e.length)

def slots (img : Image) : SlotTable :=
  (List.range img.slotCount).map img.slotAt

@[simp] theorem length_slots (img : Image) : img.slots.length = img.slotCount := by
  simp [slots]

theorem getElem?_slots (img : Image) (slot : Nat) :
    img.slots[slot]? = if slot < img.slotCount then some (img.slotAt slot) else none := by
  rw [slots, List.getElem?_map]
  split
  case isTrue h => rw [List.getElem?_range h, Option.map_some]
  case isFalse h => rw [List.getElem?_eq_none (by simpa using h), Option.map_none]

theorem slots_eq_of_slotAt {img : Image} {t : SlotTable} (hlength : img.slotCount = t.length)
    (h : ∀ slot, slot < t.length → t[slot]? = some (img.slotAt slot)) : img.slots = t := by
  apply List.ext_getElem?
  intro slot
  rw [getElem?_slots, hlength]
  split
  case isTrue hslot => exact (h slot hslot).symm
  case isFalse hslot => exact (List.getElem?_eq_none (by omega)).symm

/-- The row in a slot, if there is one, lies in the row data. -/
def Inside (img : Image) (slot : Nat) : Prop :=
  (img.entryAt slot).isFree = false →
    pageSize ≤ (img.entryAt slot).start + img.dataLength ∧
      (img.entryAt slot).start + (img.entryAt slot).length ≤ pageSize

structure Layout (img : Image) : Prop where
  fits : headerSize + slotSize * img.slotCount + img.dataLength ≤ pageSize
  inside : ∀ slot, slot < img.slotCount → img.Inside slot
  rowBytes_le : img.slots.rowBytes ≤ img.dataLength

theorem slotAt_eq_none {img : Image} {slot : Nat} :
    img.slotAt slot = none ↔ (img.entryAt slot).isFree = true := by
  simp [slotAt]

theorem slotAt_of_occupied {img : Image} {slot : Nat} (h : (img.entryAt slot).isFree = false) :
    img.slotAt slot =
      some (img.sliceAt (img.entryAt slot).start (img.entryAt slot).length) := by
  simp [slotAt, h]

theorem rowLength_slotAt (img : Image) (slot : Nat) :
    SlotTable.rowLength (img.slotAt slot) =
      if (img.entryAt slot).isFree then 0 else (img.entryAt slot).length := by
  rw [slotAt]
  split <;> simp [SlotTable.rowLength]

namespace Layout

variable {img : Image}

theorem entry_fits (h : Layout img) {slot : Nat} (hslot : slot < img.slotCount) :
    entryStart slot + 4 ≤ pageSize := by
  have := h.fits
  simp only [entryStart, headerSize, slotSize] at this ⊢
  omega

theorem slotCount_le (h : Layout img) : img.slotCount ≤ 1023 := by
  have := h.fits
  simp only [headerSize, slotSize, pageSize] at this
  omega

/-! ## Queries -/

theorem directory_eq (h : Layout img) :
    img.directory = .ok ((List.range img.slotCount).map img.entryAt) :=
  Checked.mapM_eq_ok fun _ hslot =>
    img.readEntry_eq (h.entry_fits (List.mem_range.mp hslot))

/-- The occupied slots beside their directory entries. -/
def entries (img : Image) : List (Nat × Entry) :=
  (List.range img.slotCount).filterMap fun slot =>
    if (img.entryAt slot).isFree then none else some (slot, img.entryAt slot)

theorem occupied_eq (h : Layout img) : img.occupied = .ok (entries img) := by
  rw [occupied, h.directory_eq, Checked.ok_bind, Checked.pure_eq_ok, entries]
  have hzip : ((List.range img.slotCount).map img.entryAt).zipIdx =
      (List.range img.slotCount).map fun slot => (img.entryAt slot, slot) := by
    apply List.ext_getElem
    · simp
    · intro i h₁ h₂
      simp
  rw [hzip, List.filterMap_map]
  rfl

theorem mem_entries {slot : Nat} {e : Entry} :
    (slot, e) ∈ entries img ↔
      slot < img.slotCount ∧ e.isFree = false ∧ e = img.entryAt slot := by
  simp only [entries, List.mem_filterMap, List.mem_range]
  constructor
  · rintro ⟨s, hs, heq⟩
    split at heq
    · simp at heq
    · rename_i hfree
      obtain ⟨rfl, rfl⟩ : s = slot ∧ img.entryAt s = e := by simpa using heq
      exact ⟨hs, by simpa using hfree, rfl⟩
  · rintro ⟨hs, hfree, rfl⟩
    exact ⟨slot, hs, by simp [hfree]⟩

theorem rows_slots (img : Image) :
    img.slots.rows = (entries img).map fun (slot, e) => (slot, img.sliceAt e.start e.length) := by
  have hzip : img.slots.zipIdx =
      (List.range img.slotCount).map fun slot => (img.slotAt slot, slot) := by
    apply List.ext_getElem
    · simp
    · intro i h₁ h₂
      simp [slots]
  rw [SlotTable.rows, hzip, List.filterMap_map, entries, List.map_filterMap]
  congr 1
  funext slot
  simp only [Function.comp_apply, slotAt]
  split <;> rfl

theorem numberedRows_eq (h : Layout img) : img.numberedRows = .ok img.slots.rows := by
  rw [numberedRows, h.occupied_eq, Checked.ok_bind, rows_slots]
  refine Checked.mapM_eq_ok fun (slot, e) hmem => ?_
  obtain ⟨hslot, hfree, rfl⟩ := mem_entries.mp hmem
  change (img.slice _ _ >>= fun row => pure (slot, row)) = _
  rw [img.slice_eq (h.inside slot hslot hfree).2]
  rfl

theorem rows_eq (h : Layout img) :
    img.rows = .ok (img.slots.rows.map fun (slot, row) => (SlotId.ofNat slot, row)) := by
  rw [rows, h.numberedRows_eq]
  rfl

theorem rowCount_eq (h : Layout img) : img.rowCount = .ok img.slots.rows.length := by
  rw [rowCount, h.occupied_eq, rows_slots, List.length_map]
  rfl

theorem occupiedEntry_eq (h : Layout img) (slot : SlotId) :
    img.occupiedEntry slot = .ok (match img.slots[slot.toNat]? with
      | none => .error (.noSlot slot)
      | some none => .error (.emptySlot slot)
      | some (some _) => .ok (img.entryAt slot.toNat)) := by
  rw [occupiedEntry, getElem?_slots]
  by_cases hslot : slot.toNat < img.slotCount
  · rw [if_neg (by omega), if_pos hslot, img.readEntry_eq (h.entry_fits hslot)]
    cases hfree : (img.entryAt slot.toNat).isFree with
    | true => simp [slotAt_eq_none.mpr hfree, hfree]
    | false => simp [slotAt_of_occupied hfree, hfree]
  · rw [if_pos (by omega), if_neg hslot]
    rfl

theorem row_eq (h : Layout img) (slot : SlotId) :
    img.row slot = .ok (match img.slots[slot.toNat]? with
      | none => .error (.noSlot slot)
      | some none => .error (.emptySlot slot)
      | some (some row) => .ok row) := by
  rw [row, h.occupiedEntry_eq, getElem?_slots]
  by_cases hslot : slot.toNat < img.slotCount
  · rw [if_pos hslot]
    cases hfree : (img.entryAt slot.toNat).isFree with
    | true => simp [slotAt_eq_none.mpr hfree]
    | false =>
      simp [slotAt_of_occupied hfree, rowAt, img.slice_eq (h.inside _ hslot hfree).2]
  · rw [if_neg hslot]
    rfl

/-! ## Space -/

theorem freeSlot?_eq (h : Layout img) :
    img.freeSlot? =
      .ok (if img.slots.firstFree < img.slotCount then some img.slots.firstFree else none) := by
  have hfree : Entry.isFree ∘ img.entryAt = Option.isNone ∘ img.slotAt := by
    funext slot
    cases hfree : (img.entryAt slot).isFree <;> simp [slotAt, hfree]
  rw [freeSlot?, h.directory_eq, Checked.ok_bind, Checked.pure_eq_ok, List.findIdx?_map, hfree,
    ← List.findIdx?_map, List.findIdx?_eq_guard_findIdx_lt]
  simp only [Option.guard, decide_eq_true_eq]
  rw [← slots, length_slots, SlotTable.firstFree]

theorem gap_eq (h : Layout img) :
    img.gap = .ok (pageSize - headerSize - slotSize * img.slotCount - img.dataLength) := by
  have := h.fits
  rw [gap, Nat.mul_comm, Checked.sub_eq_ok.mpr ⟨by omega, rfl⟩]
  rfl

theorem foldr_length_entries (img : Image) :
    (entries img).foldr (fun (_, e) n => e.length + n) 0 = img.slots.rowBytes := by
  rw [entries, slots]
  induction List.range img.slotCount with
  | nil => rfl
  | cons slot rest ih =>
    rw [List.map_cons, SlotTable.rowBytes_cons, ← ih, rowLength_slotAt, List.filterMap_cons]
    cases hfree : (img.entryAt slot).isFree <;> simp

theorem deadBytes_eq (h : Layout img) :
    img.deadBytes = .ok (img.dataLength - img.slots.rowBytes) := by
  rw [deadBytes, h.occupied_eq, Checked.ok_bind, foldr_length_entries,
    Checked.sub_eq_ok.mpr ⟨h.rowBytes_le, rfl⟩]

theorem available_eq (h : Layout img) :
    img.available =
      .ok (pageSize - headerSize - slotSize * img.slotCount - img.slots.rowBytes) := by
  have := h.fits
  have := h.rowBytes_le
  rw [available, h.gap_eq, h.deadBytes_eq]
  simp only [Checked.ok_bind, Checked.pure_eq_ok, Except.ok.injEq]
  omega

theorem hasRoom_eq (h : Layout img) {size : Nat} (hsize : size + slotSize < Checked.wordBound) :
    img.hasRoom size = .ok (decide (img.slots.Fits size)) := by
  have hfits := h.fits
  have hrows := h.rowBytes_le
  rw [hasRoom, h.freeSlot?_eq, Checked.ok_bind, h.available_eq]
  simp only [SlotTable.Fits, length_slots]
  by_cases hfree : img.slots.firstFree < img.slotCount
  · rw [if_pos hfree, if_pos hfree, slotCost, if_pos Option.isSome_some,
      Checked.add_eq_ok.mpr ⟨by omega, rfl⟩]
    simp only [Checked.ok_bind, Checked.pure_eq_ok, Except.ok.injEq, decide_eq_decide]
    omega
  · rw [if_neg hfree, if_neg hfree, slotCost, if_neg (by decide),
      Checked.add_eq_ok.mpr ⟨by omega, rfl⟩]
    simp only [Checked.ok_bind, Checked.pure_eq_ok, Except.ok.injEq, decide_eq_decide]
    simp only [headerSize, slotSize, pageSize] at hfits ⊢
    omega

end Layout

end Image

end PagedHeap
