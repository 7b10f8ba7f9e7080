import PagedHeap.Proofs.Page.History
import PagedHeap.Proofs.Pool.RowOp

/-!
# Rows by record

Operations on rows are replayed on a map from records to rows: a row is put only where there is
none, and removed only where there is one.  Whether that succeeds is a matter of each record by
itself, so the rows of a page may be looked at cell by cell.
-/

namespace PagedHeap

abbrev RowMap := RecordId → Option Row

namespace RowOp

/-- What the operation makes of the record that it is about. -/
def onCell? : RowOp → Option Row → Option (Option Row)
  | put _ row, none => some (some row)
  | remove _, some _ => some none
  | _, _ => none

def onRows? (op : RowOp) (rows : RowMap) : Option RowMap :=
  (op.onCell? (rows op.rid)).map fun cell rid => if rid = op.rid then cell else rows rid

def replayRows? (ops : List RowOp) (rows : RowMap) : Option RowMap :=
  ops.foldlM (fun rows op => op.onRows? rows) rows

/-- The operations on one record. -/
def replayCell? (rid : RecordId) (ops : List RowOp) (cell : Option Row) : Option (Option Row) :=
  (ops.filter fun op => op.rid = rid).foldlM (fun cell op => op.onCell? cell) cell

variable {op : RowOp} {ops ops' : List RowOp} {rid : RecordId} {cell : Option Row}
  {rows rows' : RowMap}

@[simp] theorem replayCell?_nil (rid : RecordId) (cell : Option Row) :
    replayCell? rid [] cell = some cell := rfl

theorem replayCell?_append (rid : RecordId) (ops ops' : List RowOp) (cell : Option Row) :
    replayCell? rid (ops ++ ops') cell =
      (replayCell? rid ops cell).bind (replayCell? rid ops') := by
  simp only [replayCell?, List.filter_append, List.foldlM_append]
  rfl

theorem replayCell?_cons (op : RowOp) (ops : List RowOp) (rid : RecordId) (cell : Option Row) :
    replayCell? rid (op :: ops) cell =
      if op.rid = rid then (op.onCell? cell).bind (replayCell? rid ops)
      else replayCell? rid ops cell := by
  by_cases h : op.rid = rid
  · simp only [replayCell?, h, decide_true, List.filter_cons_of_pos, List.foldlM_cons, if_true]
    rfl
  · simp [replayCell?, h]

theorem replayCell?_singleton (op : RowOp) (rid : RecordId) (cell : Option Row) :
    replayCell? rid [op] cell = if op.rid = rid then op.onCell? cell else some cell := by
  rw [replayCell?_cons]
  split
  · cases op.onCell? cell <;> rfl
  · rfl

theorem replayCell?_of_forall_ne (h : ∀ op ∈ ops, op.rid ≠ rid) :
    replayCell? rid ops cell = some cell := by
  have hnone : ops.filter (fun op => op.rid = rid) = [] := by
    simpa [List.filter_eq_nil_iff] using h
  rw [replayCell?, hnone]
  rfl

/-- A replay that succeeds for every record succeeds. -/
theorem replayRows?_of_cells (h : ∀ rid, replayCell? rid ops (rows rid) = some (rows' rid)) :
    replayRows? ops rows = some rows' := by
  induction ops generalizing rows with
  | nil =>
    have hsame : rows = rows' := funext fun rid => Option.some.inj (h rid)
    rw [hsame]
    rfl
  | cons op ops ih =>
    have hself := h op.rid
    rw [replayCell?_cons, if_pos rfl] at hself
    obtain ⟨cell, hcell, hrest⟩ := Option.bind_eq_some_iff.mp hself
    have hop : op.onRows? rows = some fun rid => if rid = op.rid then cell else rows rid := by
      rw [onRows?, hcell]
      rfl
    have hcons : replayRows? (op :: ops) rows =
        (op.onRows? rows).bind (replayRows? ops) := rfl
    rw [hcons, hop]
    refine ih fun rid => ?_
    by_cases hrid : rid = op.rid
    · simp only [hrid, if_true]
      exact hrest
    · simp only [if_neg hrid]
      have hother := h rid
      rw [replayCell?_cons, if_neg (Ne.symm hrid)] at hother
      exact hother

end RowOp

/-! ## The cells of a page -/

namespace SlotId

theorem toNat_inj {a b : SlotId} (h : a.toNat = b.toNat) : a = b := by
  cases a
  cases b
  exact congrArg SlotId.mk (UInt16.toNat_inj.mp h)

end SlotId

namespace Image

variable {img img' : Image} {op : RowOp} {slot : SlotId} {row : Row}

/-- The row under a slot, if there is one. -/
def cell (img : Image) (slot : SlotId) : Option Row :=
  img.slots[slot.toNat]?.join

@[simp] theorem cell_blank (slot : SlotId) : blank.cell slot = none := by
  rw [cell, layout_blank.2]
  rfl

/-- The rows that are read from a page are those of its cells. -/
theorem Layout.rows_cell (h : Layout img) :
    ∃ found, img.rows = .ok found ∧ ∀ slot row, (slot, row) ∈ found ↔ img.cell slot = some row := by
  refine ⟨_, h.rows_eq, fun slot row => ?_⟩
  rw [List.mem_map, cell]
  constructor
  · rintro ⟨⟨n, row'⟩, hmem, heq⟩
    obtain ⟨rfl, rfl⟩ := Prod.mk.inj heq
    have hget := SlotTable.mem_rows.mp hmem
    have hlt : n < img.slotCount := by
      rw [← length_slots]
      exact (List.getElem?_eq_some_iff.mp hget).1
    have hcount := h.slotCount_le
    rw [SlotId.toNat_ofNat (by omega), hget]
    rfl
  · intro hcell
    have hget : img.slots[slot.toNat]? = some (some row) := Option.join_eq_some_iff.mp hcell
    refine ⟨(slot.toNat, row), SlotTable.mem_rows.mpr hget, ?_⟩
    have hslot : SlotId.ofNat slot.toNat = slot :=
      SlotId.toNat_inj (SlotId.toNat_ofNat slot.number.toNat_lt)
    simp only [hslot]

theorem Layout.cell_firstFree (h : Layout img) :
    img.cell (SlotId.ofNat img.slots.firstFree) = none := by
  rw [cell, SlotId.toNat_ofNat h.firstFree_lt]
  by_cases hfree : img.slots.firstFree < img.slots.length
  · rw [SlotTable.getElem?_firstFree hfree]
    rfl
  · rw [List.getElem?_eq_none (Nat.not_lt.mp hfree)]
    rfl

theorem Layout.onImage?_put (h : Layout img) {rid : RecordId}
    (hop : (RowOp.put rid row).onImage? img = some img') :
    Layout img' ∧ img.cell rid.slot = none ∧
      ∀ slot, img'.cell slot = if slot = rid.slot then some row else img.cell slot := by
  rw [RowOp.onImage?] at hop
  by_cases hfits : img.slots.Fits row.length
  case neg =>
    rw [h.on_insert_refused hfits] at hop
    cases hop
  obtain ⟨placed, hon, hlayout, hslots⟩ := h.on_insert hfits
  simp only [hon] at hop
  split at hop
  case isFalse => cases hop
  case isTrue hslot =>
    obtain rfl := Option.some.inj hop
    have hnumber : rid.slot.toNat = img.slots.firstFree := by
      rw [← hslot, SlotId.toNat_ofNat h.firstFree_lt]
    refine ⟨hlayout, hslot ▸ h.cell_firstFree, fun slot => ?_⟩
    rw [cell, hslots, SlotTable.getElem?_put, ← hnumber]
    by_cases heq : slot = rid.slot
    · rw [if_pos heq, if_pos (congrArg SlotId.toNat heq)]
      rfl
    · rw [if_neg heq, if_neg fun hsame => heq (SlotId.toNat_inj hsame), cell]

theorem Layout.onImage?_remove (h : Layout img) {rid : RecordId}
    (hop : (RowOp.remove rid).onImage? img = some img') :
    Layout img' ∧ (∃ row, img.cell rid.slot = some row) ∧
      ∀ slot, img'.cell slot = if slot = rid.slot then none else img.cell slot := by
  rw [RowOp.onImage?, on_delete h] at hop
  rcases hget : img.slots[rid.slot.toNat]? with _ | _ | row
  · rw [hget] at hop
    cases hop
  · rw [hget] at hop
    cases hop
  · rw [hget] at hop
    obtain rfl := Option.some.inj hop
    have hslot : rid.slot.toNat < img.slotCount := by
      rw [← length_slots]
      exact (List.getElem?_eq_some_iff.mp hget).1
    obtain ⟨hlayout, hslots⟩ := h.free hslot
    refine ⟨hlayout, ⟨row, by rw [cell, hget]; rfl⟩, fun slot => ?_⟩
    by_cases heq : slot = rid.slot
    · rw [if_pos heq, heq, cell, hslots, List.getElem?_set_self (by rwa [length_slots])]
      rfl
    · have hother : rid.slot.toNat ≠ slot.toNat := fun hsame => heq (SlotId.toNat_inj hsame).symm
      rw [if_neg heq, cell, hslots, List.getElem?_set_ne hother, cell]

/-- An operation on a page does to each of its cells what it does to records. -/
theorem Layout.onImage? (h : Layout img) (hop : op.onImage? img = some img') :
    Layout img' ∧ ∀ slot, RowOp.replayCell? ⟨op.rid.page, slot⟩ [op] (img.cell slot) =
      some (img'.cell slot) := by
  have hrid : ∀ slot, op.rid = ⟨op.rid.page, slot⟩ ↔ slot = op.rid.slot := fun slot =>
    ⟨fun heq => (congrArg RecordId.slot heq).symm, fun heq => by rw [heq]⟩
  cases op with
  | put rid row =>
    obtain ⟨hlayout, hfree, hcell⟩ := h.onImage?_put hop
    refine ⟨hlayout, fun slot => ?_⟩
    simp only [RowOp.replayCell?_singleton, hrid, hcell]
    by_cases heq : slot = rid.slot
    · subst heq
      simp [RowOp.rid, hfree, RowOp.onCell?]
    · simp [RowOp.rid, heq]
  | remove rid =>
    obtain ⟨hlayout, ⟨row, hfilled⟩, hcell⟩ := h.onImage?_remove hop
    refine ⟨hlayout, fun slot => ?_⟩
    simp only [RowOp.replayCell?_singleton, hrid, hcell]
    by_cases heq : slot = rid.slot
    · subst heq
      simp [RowOp.rid, hfilled, RowOp.onCell?]
    · simp [RowOp.rid, heq]

end Image

end PagedHeap
