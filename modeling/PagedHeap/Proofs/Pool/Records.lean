import PagedHeap.Proofs.Pool.RowMap
import PagedHeap.Page.Copy

/-!
# The records of a table

The records of a page are its rows under their record identifiers, and those of a table are the
records of its pages, one page after the other.  They ascend, so no record is met twice.
-/

namespace PagedHeap

/-- The page of a table with a number that is not cut to 32 bits. -/
def TableId.page (table : TableId) (n : Nat) : PageId :=
  ⟨table, UInt32.ofNat n⟩

theorem TableId.page_toNat (table : TableId) (n : UInt32) : table.page n.toNat = ⟨table, n⟩ := by
  rw [TableId.page, UInt32.ofNat_toNat]

theorem TableId.toNat_page (table : TableId) {n : Nat} (h : n < UInt32.size) :
    (table.page n).pageNo.toNat = n :=
  UInt32.toNat_ofNat_of_lt h

theorem PageId.eq_page (id : PageId) : id = id.table.page id.pageNo.toNat :=
  (TableId.page_toNat id.table id.pageNo).symm

namespace Image

variable {img : Image} {id : PageId} {rid : RecordId} {row : Row}

/-- The rows that are read off a page, under their record identifiers. -/
def records (img : Image) (id : PageId) : List (RecordId × Row) :=
  match img.rows with
  | .ok rows => rows.map fun entry => (⟨id, entry.1⟩, entry.2)
  | .error _ => []

theorem Layout.records_eq (h : Layout img) (id : PageId) : img.records id =
    img.slots.rows.map fun entry => (⟨id, SlotId.ofNat entry.1⟩, entry.2) := by
  rw [records, h.rows_eq]
  exact List.map_map

@[simp] theorem records_blank (id : PageId) : blank.records id = [] := by
  rw [layout_blank.1.records_eq, layout_blank.2]
  rfl

/-- The records of a page are the rows that it is asked for one by one. -/
theorem Layout.mem_records (h : Layout img) :
    (rid, row) ∈ img.records id ↔ rid.page = id ∧ img.row rid.slot = .ok (.ok row) := by
  have hrow : img.row rid.slot = .ok (.ok row) ↔
      img.slots[rid.slot.toNat]? = some (some row) := by
    rw [h.row_eq]
    rcases img.slots[rid.slot.toNat]? with _ | _ | found <;> simp
  rw [hrow, h.records_eq, List.mem_map]
  constructor
  · rintro ⟨⟨slot, row'⟩, hmem, heq⟩
    obtain ⟨rfl, rfl⟩ := Prod.mk.inj heq
    have hget := SlotTable.mem_rows.mp hmem
    have hlt : slot < img.slotCount := by
      rw [← length_slots]
      exact (List.getElem?_eq_some_iff.mp hget).1
    have hcount := h.slotCount_le
    refine ⟨rfl, ?_⟩
    rw [SlotId.toNat_ofNat (by omega)]
    exact hget
  · rintro ⟨rfl, hget⟩
    refine ⟨(rid.slot.toNat, row), SlotTable.mem_rows.mpr hget, ?_⟩
    have hslot : SlotId.ofNat rid.slot.toNat = rid.slot :=
      SlotId.toNat_inj (SlotId.toNat_ofNat rid.slot.number.toNat_lt)
    rw [hslot]

theorem page_of_mem_records (h : (rid, row) ∈ img.records id) : rid.page = id := by
  rw [records] at h
  split at h
  case h_1 rows _ =>
    obtain ⟨entry, -, heq⟩ := List.mem_map.mp h
    rw [← (Prod.mk.inj heq).1]
  case h_2 => cases h

theorem Layout.records_ascending (h : Layout img) (id : PageId) :
    (img.records id).Pairwise fun a b => rank a.1 < rank b.1 := by
  have hcount := h.slotCount_le
  have hlt : ∀ entry ∈ img.slots.rows, entry.1 < 65536 := by
    rintro ⟨slot, row⟩ hmem
    have hslot := (List.getElem?_eq_some_iff.mp (SlotTable.mem_rows.mp hmem)).1
    rw [length_slots] at hslot
    exact Nat.lt_of_lt_of_le hslot (by omega)
  rw [h.records_eq, List.pairwise_map]
  refine img.slots.rows_ascending.imp_of_mem fun {a b} ha hb hab => ?_
  refine Nat.add_lt_add_left ?_ _
  change (SlotId.ofNat a.1).toNat < (SlotId.ofNat b.1).toNat
  rwa [SlotId.toNat_ofNat (hlt a ha), SlotId.toNat_ofNat (hlt b hb)]

end Image

namespace Page

theorem records_of_rows {page : Page} {found : List (RecordId × Row)} (h : page.rows = .ok found) :
    found = page.image.records page.id := by
  rw [rows] at h
  rw [Image.records]
  cases hrows : page.image.rows with
  | error fault =>
    rw [hrows] at h
    cases h
  | ok rows =>
    rw [hrows, Checked.ok_bind] at h
    exact (Except.ok.inj h).symm

end Page

/-! ## Several pages -/

section Table

variable {table : TableId} {images images' : Nat → Image} {n k : Nat} {rid : RecordId} {row : Row}

/-- The records of the first pages of a table, which have these images. -/
def recordsOf (table : TableId) (images : Nat → Image) (n : Nat) : List (RecordId × Row) :=
  (List.range n).flatMap fun i => (images i).records (table.page i)

@[simp] theorem recordsOf_zero (table : TableId) (images : Nat → Image) :
    recordsOf table images 0 = [] := rfl

theorem recordsOf_succ (table : TableId) (images : Nat → Image) (n : Nat) :
    recordsOf table images (n + 1) =
      recordsOf table images n ++ (images n).records (table.page n) := by
  simp [recordsOf, List.range_succ]

theorem recordsOf_congr (h : ∀ i < n, images i = images' i) :
    recordsOf table images n = recordsOf table images' n := by
  induction n with
  | zero => rfl
  | succ n ih =>
    rw [recordsOf_succ, recordsOf_succ, ih fun i hi => h i (Nat.lt_succ_of_lt hi),
      h n (Nat.lt_succ_self n)]

/-- Blank pages behind the others hold no records. -/
theorem recordsOf_blank (h : ∀ i, n ≤ i → i < k → images i = Image.blank) (hle : n ≤ k) :
    recordsOf table images k = recordsOf table images n := by
  induction k with
  | zero => rw [Nat.le_zero.mp hle]
  | succ k ih =>
    rcases Nat.lt_or_ge k n with hlt | hge
    · rw [Nat.le_antisymm hle hlt]
    · rw [recordsOf_succ, h k hge (Nat.lt_succ_self k), Image.records_blank, List.append_nil]
      exact ih (fun i hi hk => h i hi (Nat.lt_succ_of_lt hk)) hge

theorem mem_recordsOf (hlayout : ∀ i < n, (images i).Layout) (hn : n ≤ UInt32.size) :
    (rid, row) ∈ recordsOf table images n ↔
      rid.page.table = table ∧ rid.page.pageNo.toNat < n ∧
        (images rid.page.pageNo.toNat).row rid.slot = .ok (.ok row) := by
  rw [recordsOf, List.mem_flatMap]
  constructor
  · rintro ⟨i, hi, hmem⟩
    have hlt := List.mem_range.mp hi
    obtain ⟨hpage, hrow⟩ := (hlayout i hlt).mem_records.mp hmem
    have hno : rid.page.pageNo.toNat = i := by
      rw [hpage]
      exact table.toNat_page (Nat.lt_of_lt_of_le hlt hn)
    exact ⟨by rw [hpage]; rfl, by rwa [hno], by rwa [hno]⟩
  · rintro ⟨rfl, hlt, hrow⟩
    exact ⟨_, List.mem_range.mpr hlt, (hlayout _ hlt).mem_records.mpr ⟨rid.page.eq_page, hrow⟩⟩

/-- Records of one page come before those of a later one. -/
theorem rank_lt_of_page {a b : RecordId} (htable : a.page.table = b.page.table)
    (h : a.page.pageNo.toNat < b.page.pageNo.toNat) : rank a < rank b := by
  have hpage : rank a.page + 1 ≤ rank b.page := by
    change a.page.table.number.toNat * UInt32.size + a.page.pageNo.toNat + 1 ≤
      b.page.table.number.toNat * UInt32.size + b.page.pageNo.toNat
    rw [htable]
    omega
  have hslot : rank a.slot < UInt16.size := a.slot.number.toNat_lt_size
  calc rank a = rank a.page * UInt16.size + rank a.slot := rfl
    _ < (rank a.page + 1) * UInt16.size := by rw [Nat.add_mul, Nat.one_mul]; omega
    _ ≤ rank b.page * UInt16.size := Nat.mul_le_mul_right _ hpage
    _ ≤ rank b := Nat.le_add_right _ _

theorem recordsOf_ascending (hlayout : ∀ i < n, (images i).Layout) (hn : n ≤ UInt32.size) :
    (recordsOf table images n).Pairwise fun a b => rank a.1 < rank b.1 := by
  induction n with
  | zero => exact List.Pairwise.nil
  | succ n ih =>
    have hlayout' : ∀ i < n, (images i).Layout := fun i hi => hlayout i (Nat.lt_succ_of_lt hi)
    have hn' : n ≤ UInt32.size := Nat.le_of_succ_le hn
    rw [recordsOf_succ, List.pairwise_append]
    refine ⟨ih hlayout' hn', (hlayout n (Nat.lt_succ_self n)).records_ascending _, ?_⟩
    rintro ⟨rid, row⟩ hbefore ⟨rid', row'⟩ hlast
    obtain ⟨htable, hlt, -⟩ := (mem_recordsOf hlayout' hn').mp hbefore
    have hpage := Image.page_of_mem_records hlast
    refine rank_lt_of_page ?_ ?_
    · rw [htable, hpage]
      rfl
    · rw [hpage, table.toNat_page hn]
      exact hlt

end Table

end PagedHeap
