import PagedHeap.Proofs.Act
import PagedHeap.Proofs.Page.SlotTable

/-!
# Edits of a page and of its slot table

Inserting, deleting and compacting keep the layout of a page, and each of them does to the bytes
what its name says of the slot table.  Compaction reads all rows before it writes one, so it need
not care that it overwrites the places where they lay.
-/

namespace PagedHeap

def totalLength (found : List (Nat × Row)) : Nat :=
  found.foldr (fun p total => p.2.length + total) 0

@[simp] theorem totalLength_cons (p : Nat × Row) (found : List (Nat × Row)) :
    totalLength (p :: found) = p.2.length + totalLength found := rfl

namespace SlotTable

theorem length_put (t : SlotTable) (row : Row) :
    (t.put row).length = if t.firstFree < t.length then t.length else t.length + 1 := by
  rw [put]
  split <;> simp

theorem mem_rows {t : SlotTable} {slot : Nat} {row : Row} :
    (slot, row) ∈ t.rows ↔ t[slot]? = some (some row) := by
  simp only [rows, List.mem_filterMap, Prod.exists, List.mem_zipIdx_iff_getElem?,
    Option.map_eq_some_iff, Prod.mk.injEq]
  constructor
  · rintro ⟨r, s, hget, row', rfl, rfl, rfl⟩
    exact hget
  · intro hget
    exact ⟨some row, slot, hget, row, rfl, rfl, rfl⟩

theorem rows_ascending (t : SlotTable) : t.rows.Pairwise fun a b => a.1 < b.1 := by
  rw [rows, List.pairwise_filterMap]
  have hindices : t.zipIdx.Pairwise fun a b => a.2 < b.2 := by
    rw [← List.pairwise_map (f := Prod.snd), List.zipIdx_map_snd]
    exact List.pairwise_lt_range'
  refine hindices.imp fun {a b} hab p hp q hq => ?_
  obtain ⟨_, _, rfl⟩ := Option.map_eq_some_iff.mp hp
  obtain ⟨_, _, rfl⟩ := Option.map_eq_some_iff.mp hq
  exact hab

theorem nodup_slots_rows (t : SlotTable) : (t.rows.map Prod.fst).Nodup :=
  List.pairwise_map.mpr (t.rows_ascending.imp Nat.ne_of_lt)

theorem totalLength_rows (t : SlotTable) : totalLength t.rows = t.rowBytes := by
  have go : ∀ k, totalLength ((t.zipIdx k).filterMap fun p => p.1.map (Prod.mk p.2)) =
      t.rowBytes := by
    induction t with
    | nil => exact fun _ => rfl
    | cons r rest ih =>
      intro k
      rw [rowBytes_cons, ← ih (k + 1), List.zipIdx_cons]
      cases r <;> simp [rowLength]
  exact go 0

end SlotTable

namespace Image

/-- A slot reads as before if its entry is the same and the row data was left alone. -/
theorem slotAt_congr {img img' : Image} {slot : Nat} (hinside : img.Inside slot)
    (he : img'.entryAt slot = img.entryAt slot)
    (ha : Agree img img' (pageSize - img.dataLength) pageSize) :
    img'.slotAt slot = img.slotAt slot := by
  cases hfree : (img.entryAt slot).isFree with
  | true => rw [slotAt_eq_none.mpr hfree, slotAt_eq_none.mpr (he ▸ hfree)]
  | false =>
    obtain ⟨hlow, hhigh⟩ := hinside hfree
    rw [slotAt_of_occupied hfree, slotAt_of_occupied (he ▸ hfree), he,
      ha.sliceAt_eq (by omega) hhigh]

theorem entryStart_ge (slot : Nat) : headerSize ≤ entryStart slot :=
  Nat.le_add_right ..

theorem entryStart_add_four_le {slot count : Nat} (h : slot < count) :
    entryStart slot + 4 ≤ headerSize + slotSize * count := by
  simp only [entryStart, slotSize]
  omega

theorem slotCount_of_agree {img img' : Image} (h : Agree img img' 0 2) :
    img'.slotCount = img.slotCount := by
  rw [slotCount_eq, slotCount_eq, h.wordAt_eq (Nat.le_refl _) (Nat.le_refl _)]

theorem dataLength_of_agree {img img' : Image} (h : Agree img img' 2 headerSize) :
    img'.dataLength = img.dataLength := by
  rw [dataLength_eq, dataLength_eq, h.wordAt_eq (Nat.le_refl _) (Nat.le_refl _)]

theorem layout_blank : Layout blank ∧ blank.slots = [] := by
  have hbyte : ∀ i, blank.byteAt i = 0 := by
    intro i
    by_cases hi : i < pageSize
    · rw [byteAt_of_lt _ hi, getElem_blank hi]
    · simp [byteAt, hi]
  have hword : ∀ i, blank.wordAt i = 0 := by
    intro i
    rw [wordAt, hbyte, hbyte]
    rfl
  have hcount : blank.slotCount = 0 := (slotCount_eq _).trans (hword 0)
  have hdata : blank.dataLength = 0 := (dataLength_eq _).trans (hword 2)
  have hslots : blank.slots = [] := by rw [slots, hcount]; rfl
  refine ⟨⟨by rw [hcount, hdata]; decide, fun slot hslot => ?_, ?_⟩, hslots⟩
  · rw [hcount] at hslot
    exact absurd hslot (Nat.not_lt_zero slot)
  · rw [hslots]
    exact Nat.zero_le _

/-! ## Deleting -/

theorem Layout.free {img : Image} (h : Layout img) {slot : Nat} (hslot : slot < img.slotCount) :
    Layout (img.putEntry slot Entry.free) ∧
      (img.putEntry slot Entry.free).slots = img.slots.set slot none := by
  have hfits := h.fits
  have hentry := entryStart_add_four_le hslot
  have hheader : Agree img (img.putEntry slot Entry.free) 0 headerSize :=
    img.agree_putEntry (Or.inl (entryStart_ge slot))
  have hdata : Agree img (img.putEntry slot Entry.free) (pageSize - img.dataLength) pageSize :=
    img.agree_putEntry (Or.inr (by omega))
  have hcount := slotCount_of_agree (hheader.mono (Nat.le_refl _) (by decide))
  have hlength := dataLength_of_agree (hheader.mono (Nat.zero_le _) (Nat.le_refl _))
  have hfree : (img.putEntry slot Entry.free).entryAt slot = Entry.free :=
    img.entryAt_putEntry_self (h.entry_fits hslot) (by decide) (by decide)
  have hslots : (img.putEntry slot Entry.free).slots = img.slots.set slot none := by
    refine slots_eq_of_slotAt (by simp [hcount]) fun s hs => ?_
    rw [List.length_set, length_slots] at hs
    rw [List.getElem?_set, length_slots, if_pos hslot, getElem?_slots, if_pos hs]
    split
    case isTrue heq =>
      rw [← heq, slotAt_eq_none.mpr (by rw [hfree]; rfl)]
    case isFalse hne =>
      rw [slotAt_congr (h.inside s hs) (img.entryAt_putEntry_of_ne (Ne.symm hne)) hdata]
  refine ⟨⟨by rw [hcount, hlength]; exact hfits, fun s hs hoccupied => ?_, ?_⟩, hslots⟩
  · rw [hcount] at hs
    by_cases heq : s = slot
    · rw [heq, hfree] at hoccupied
      exact absurd hoccupied (by decide)
    · rw [img.entryAt_putEntry_of_ne heq] at hoccupied ⊢
      rw [hlength]
      exact h.inside s hs hoccupied
  · have hget : img.slots[slot]? = some (img.slotAt slot) := by
      rw [getElem?_slots, if_pos hslot]
    have hrows := img.slots.rowBytes_set hget none
    have hzero : SlotTable.rowLength none = 0 := rfl
    have hle := h.rowBytes_le
    rw [hslots, hlength]
    omega

theorem on_delete {img : Image} (h : Layout img) (slot : SlotId) :
    (delete slot).on img = match img.slots[slot.toNat]? with
      | none => (.ok (.error (.noSlot slot)), img)
      | some none => (.ok (.error (.emptySlot slot)), img)
      | some (some _) => (.ok (.ok ()), img.putEntry slot.toNat Entry.free) := by
  simp only [delete, Act.on_bind, Act.on_get, Act.on_checked, h.occupiedEntry_eq]
  rcases hget : img.slots[slot.toNat]? with _ | _ | row
  · rfl
  · rfl
  · have hslot : slot.toNat < img.slotCount := by
      rw [← length_slots]
      exact (List.getElem?_eq_some_iff.mp hget).1
    simp only [img.writeEntry_eq (h.entry_fits hslot)]
    rfl

/-! ## Entering a row -/

/-- A row was written below the directory and entered under a slot; the entries of the other slots
and the bytes behind the row are what they were. -/
structure Entered (slot start : Nat) (row : Row) (count : Nat) (img img' : Image) : Prop where
  entry : img'.entryAt slot = ⟨start, row.length⟩
  bytes : img'.sliceAt start row.length = row
  other : ∀ s, s < count → s ≠ slot → img'.entryAt s = img.entryAt s
  behind : Agree img img' (start + row.length) pageSize

/-- Between the row and its entry the header may be written. -/
theorem entered_putEntry {img counted : Image} {slot start count : Nat} {row : Row}
    (hcounted : Agree (img.overwrite start row) counted headerSize pageSize) (hslot : slot < count)
    (hroom : headerSize + slotSize * count ≤ start) (hpage : start + row.length ≤ pageSize) :
    Entered slot start row count img (counted.putEntry slot ⟨start, row.length⟩) := by
  have hentry := entryStart_add_four_le hslot
  have hword : pageSize < 65536 := by decide
  have hheader : headerSize ≤ start := Nat.le_trans (Nat.le_add_right _ _) hroom
  have hbehind : ∀ {low high}, entryStart slot + 4 ≤ low →
      Agree counted (counted.putEntry slot ⟨start, row.length⟩) low high :=
    fun h => counted.agree_putEntry (Or.inr h)
  refine ⟨?_, ?_, fun s hs hne => ?_, ?_⟩
  · exact counted.entryAt_putEntry_self (by omega) (by simp only; omega) (by simp only; omega)
  · calc (counted.putEntry slot ⟨start, row.length⟩).sliceAt start row.length
        = counted.sliceAt start row.length :=
          (hbehind (by omega)).sliceAt_eq (Nat.le_refl _) (Nat.le_refl _)
      _ = (img.overwrite start row).sliceAt start row.length := hcounted.sliceAt_eq hheader hpage
      _ = row := img.sliceAt_overwrite_self hpage
  · have hbelow := entryStart_add_four_le hs
    have hwritten : Agree img (img.overwrite start row) 0 start :=
      img.agree_overwrite (Or.inl (Nat.le_refl _))
    rw [counted.entryAt_putEntry_of_ne hne, hcounted.entryAt_eq (entryStart_ge s) (by omega),
      hwritten.entryAt_eq (Nat.zero_le _) (by omega)]
  · have hwritten : Agree img (img.overwrite start row) (start + row.length) pageSize :=
      img.agree_overwrite (Or.inr (Nat.le_refl _))
    exact (hwritten.trans (hcounted.mono (by omega) (Nat.le_refl _))).trans (hbehind (by omega))

theorem Entered.slotAt_self {img img' : Image} {slot start count : Nat} {row : Row}
    (h : Entered slot start row count img img') (hstart : headerSize ≤ start) :
    img'.slotAt slot = some row := by
  have hoccupied : (img'.entryAt slot).isFree = false := by
    rw [h.entry]
    exact beq_eq_false_iff_ne.mpr (Nat.ne_of_gt (Nat.lt_of_lt_of_le (by decide) hstart))
  rw [slotAt_of_occupied hoccupied, h.entry, h.bytes]

/-! ## Packing -/

/-- What packing rows below `limit` leaves: the rows lie there under their slots, and nothing else
changed below the header's end, from `limit` on, or in the entries of the other slots. -/
structure Packed (found : List (Nat × Row)) (limit count : Nat) (img img' : Image) : Prop where
  header : Agree img img' 0 headerSize
  behind : Agree img img' limit pageSize
  other : ∀ slot, slot < count → slot ∉ found.map Prod.fst → img'.entryAt slot = img.entryAt slot
  placed : ∀ slot row, (slot, row) ∈ found →
    (img'.entryAt slot).length = row.length ∧
      limit ≤ (img'.entryAt slot).start + totalLength found ∧
      (img'.entryAt slot).start + row.length ≤ limit ∧
      img'.sliceAt (img'.entryAt slot).start row.length = row

/-- The first row is entered up to the limit, and the rest in front of it. -/
theorem Packed.cons {slot limit count : Nat} {row : Row} {rest : List (Nat × Row)}
    {img entered img' : Image} (hentered : Entered slot (limit - row.length) row count img entered)
    (hheader : Agree img entered 0 headerSize)
    (hrest : Packed rest (limit - row.length) count entered img') (hslot : slot < count)
    (hnew : slot ∉ rest.map Prod.fst) (hfits : row.length ≤ limit) (hlimit : limit ≤ pageSize) :
    Packed ((slot, row) :: rest) limit count img img' where
  header := hheader.trans hrest.header
  behind := (hentered.behind.mono (by omega) (Nat.le_refl _)).trans
    (hrest.behind.mono (Nat.sub_le _ _) (Nat.le_refl _))
  other s hs hmem := by
    rw [List.map_cons, List.mem_cons, not_or] at hmem
    rw [hrest.other s hs hmem.2, hentered.other s hs hmem.1]
  placed s r hmem := by
    have htotal : totalLength ((slot, row) :: rest) = row.length + totalLength rest :=
      totalLength_cons _ _
    rcases List.mem_cons.mp hmem with heq | hmem
    · obtain ⟨rfl, rfl⟩ := Prod.mk.inj heq
      have hself : img'.entryAt s = ⟨limit - r.length, r.length⟩ :=
        (hrest.other s hslot hnew).trans hentered.entry
      rw [hself]
      refine ⟨rfl, by simp only; omega, by simp only; omega, ?_⟩
      calc img'.sliceAt (limit - r.length) r.length
          = entered.sliceAt (limit - r.length) r.length :=
            hrest.behind.sliceAt_eq (Nat.le_refl _) (by omega)
        _ = r := hentered.bytes
    · obtain ⟨hlen, hlow, hhigh, hslice⟩ := hrest.placed s r hmem
      exact ⟨hlen, by omega, by omega, hslice⟩

theorem pack_eq {found : List (Nat × Row)} {count : Nat} (limit : Nat) (img : Image)
    (hslots : ∀ p ∈ found, p.1 < count) (hnodup : (found.map Prod.fst).Nodup)
    (hroom : headerSize + slotSize * count + totalLength found ≤ limit)
    (hlimit : limit ≤ pageSize) :
    ∃ img', pack found limit img = .ok (limit - totalLength found, img') ∧
      Packed found limit count img img' := by
  induction found generalizing limit img with
  | nil =>
    exact ⟨img, rfl, Agree.refl _ _ _, Agree.refl _ _ _, fun _ _ _ => rfl, by simp⟩
  | cons p rest ih =>
    obtain ⟨slot, row⟩ := p
    obtain ⟨hnew, hnodup'⟩ := List.nodup_cons.mp hnodup
    have htotal : totalLength ((slot, row) :: rest) = row.length + totalLength rest :=
      totalLength_cons _ _
    have hslot : slot < count := hslots (slot, row) List.mem_cons_self
    have hentry := entryStart_add_four_le hslot
    let written := img.overwrite (limit - row.length) row
    let entered := written.putEntry slot ⟨limit - row.length, row.length⟩
    have hentered : Entered slot (limit - row.length) row count img entered :=
      entered_putEntry (Agree.refl _ _ _) hslot (by omega) (by omega)
    have hheader : Agree img entered 0 headerSize :=
      (img.agree_overwrite (Or.inl (by omega))).trans
        (written.agree_putEntry (Or.inl (entryStart_ge slot)))
    obtain ⟨img', hpack, hrest⟩ := ih (limit - row.length) entered
      (fun p hp => hslots p (List.mem_cons_of_mem _ hp)) hnodup' (by omega) (by omega)
    refine ⟨img', ?_, .cons hentered hheader hrest hslot hnew (by omega) hlimit⟩
    rw [pack, Checked.sub_eq_ok.mpr ⟨by omega, rfl⟩, Checked.ok_bind, write_eq _ (by omega),
      Checked.ok_bind, writeEntry_eq _ (by omega), Checked.ok_bind, hpack, htotal, Nat.sub_sub]

/-- When all rows are packed, every slot holds what it held. -/
theorem Layout.slot_packed {img packed img' : Image} (h : Layout img)
    (hpacked : Packed img.slots.rows pageSize img.slotCount img packed)
    (hagree : Agree packed img' headerSize pageSize) (hdata : img'.dataLength = img.slots.rowBytes)
    {slot : Nat} (hlt : slot < img.slotCount) :
    img'.slotAt slot = img.slotAt slot ∧ img'.Inside slot := by
  have hfits := h.fits
  have hrows := h.rowBytes_le
  have hentry : img'.entryAt slot = packed.entryAt slot :=
    hagree.entryAt_eq (entryStart_ge slot) (h.entry_fits hlt)
  have hget : img.slots[slot]? = some (img.slotAt slot) := by
    rw [getElem?_slots, if_pos hlt]
  cases hrow : img.slotAt slot with
  | none =>
    have hnot : slot ∉ img.slots.rows.map Prod.fst := by
      intro hmem
      obtain ⟨⟨s, row⟩, hin, rfl⟩ := List.mem_map.mp hmem
      have hsome := hget.symm.trans (SlotTable.mem_rows.mp hin)
      rw [hrow] at hsome
      cases hsome
    have hfree : (img'.entryAt slot).isFree = true := by
      rw [hentry, hpacked.other slot hlt hnot]
      exact slotAt_eq_none.mp hrow
    refine ⟨slotAt_eq_none.mpr hfree, fun hoccupied => ?_⟩
    rw [hfree] at hoccupied
    cases hoccupied
  | some row =>
    obtain ⟨hlen, hlow, hhigh, hslice⟩ :=
      hpacked.placed slot row (SlotTable.mem_rows.mpr (hget.trans (congrArg some hrow)))
    rw [SlotTable.totalLength_rows] at hlow
    have hstart : headerSize ≤ (packed.entryAt slot).start := by omega
    have hoccupied : (img'.entryAt slot).isFree = false := by
      rw [hentry]
      exact beq_eq_false_iff_ne.mpr (Nat.ne_of_gt (Nat.lt_of_lt_of_le (by decide) hstart))
    refine ⟨?_, fun _ => ?_⟩
    · rw [slotAt_of_occupied hoccupied, hentry, hlen, hagree.sliceAt_eq hstart hhigh, hslice]
    · rw [hentry, hdata, hlen]
      exact ⟨hlow, hhigh⟩

theorem Layout.compact_eq {img : Image} (h : Layout img) :
    ∃ img', img.compact = .ok img' ∧ Layout img' ∧ img'.slots = img.slots ∧
      img'.dataLength = img.slots.rowBytes := by
  have hfits := h.fits
  have hrows := h.rowBytes_le
  have htotal : totalLength img.slots.rows = img.slots.rowBytes := img.slots.totalLength_rows
  have hslots : ∀ p ∈ img.slots.rows, p.1 < img.slotCount := by
    intro (slot, row) hmem
    rw [← length_slots]
    exact (List.getElem?_eq_some_iff.mp (SlotTable.mem_rows.mp hmem)).1
  obtain ⟨packed, hpack, hpacked⟩ :=
    pack_eq pageSize img hslots img.slots.nodup_slots_rows (by omega) (Nat.le_refl _)
  let img' := packed.putWord 2 img.slots.rowBytes
  have hcount : img'.slotCount = img.slotCount :=
    slotCount_of_agree ((hpacked.header.mono (Nat.le_refl _) (by decide)).trans
      (packed.agree_putWord (Or.inl (Nat.le_refl _))))
  have hword : img.slots.rowBytes < 65536 := by
    simp only [headerSize, pageSize] at hfits
    omega
  have hdata : img'.dataLength = img.slots.rowBytes := by
    rw [dataLength_eq]
    exact packed.wordAt_putWord_self (by decide) hword
  have hslot : ∀ slot, slot < img.slotCount →
      img'.slotAt slot = img.slotAt slot ∧ img'.Inside slot := fun slot hlt =>
    h.slot_packed hpacked (packed.agree_putWord (Or.inr (Nat.le_refl _))) hdata hlt
  have hsame : img'.slots = img.slots := by
    refine slots_eq_of_slotAt (by rw [hcount, length_slots]) fun slot hlt => ?_
    rw [length_slots] at hlt
    rw [getElem?_slots, if_pos hlt, (hslot slot hlt).1]
  refine ⟨img', ?_, ⟨?_, fun slot hlt => (hslot slot (hcount ▸ hlt)).2, ?_⟩, hsame, hdata⟩
  · rw [Image.compact, h.numberedRows_eq, Checked.ok_bind, hpack, Checked.ok_bind, htotal]
    change packed.setWord 2 (pageSize - (pageSize - img.slots.rowBytes)) = .ok img'
    rw [Nat.sub_sub_self (by omega), setWord_eq _ (by decide)]
  · rw [hcount, hdata]
    omega
  · exact Nat.le_of_eq (by rw [hsame, hdata])

/-! ## Inserting -/

/-- Entering a row under a slot whose old entry does not matter: the slot then holds the row, and
the others what they held. -/
theorem place_eq {img : Image} {slot : Nat} {row : Row} (hslot : slot < img.slotCount)
    (hroom : headerSize + slotSize * img.slotCount + (img.dataLength + row.length) ≤ pageSize)
    (hinside : ∀ s, s < img.slotCount → s ≠ slot → img.Inside s) :
    ∃ img', img.place slot row = .ok img' ∧ img'.slotCount = img.slotCount ∧
      img'.dataLength = img.dataLength + row.length ∧
      (∀ s, s < img.slotCount → img'.slotAt s = if s = slot then some row else img.slotAt s) ∧
      ∀ s, s < img.slotCount → img'.Inside s := by
  have hentry := entryStart_add_four_le hslot
  have hge := entryStart_ge slot
  have hpage : pageSize < 65536 := by decide
  let used := img.dataLength + row.length
  let start := pageSize - used
  let written := img.overwrite start row
  let counted := written.putWord 2 used
  let img' := counted.putEntry slot ⟨start, row.length⟩
  have hused : used = img.dataLength + row.length := rfl
  have hstart : headerSize + slotSize * img.slotCount ≤ start := by omega
  have hheader : headerSize ≤ start := Nat.le_trans (Nat.le_add_right _ _) hstart
  have hentered : Entered slot start row img.slotCount img img' :=
    entered_putEntry (written.agree_putWord (Or.inr (Nat.le_refl _))) hslot hstart (by omega)
  have hcount : img'.slotCount = img.slotCount := by
    have hwritten : Agree img written 0 2 :=
      img.agree_overwrite (Or.inl (Nat.le_trans (by decide) hheader))
    have hcounted : Agree written counted 0 2 := written.agree_putWord (Or.inl (Nat.le_refl _))
    exact slotCount_of_agree ((hwritten.trans hcounted).trans
      (counted.agree_putEntry (Or.inl (Nat.le_trans (by decide) hge))))
  have hdata : img'.dataLength = used := by
    rw [dataLength_of_agree (counted.agree_putEntry (Or.inl hge)), dataLength_eq]
    exact written.wordAt_putWord_self (by decide) (by omega)
  have hold : Agree img img' (pageSize - img.dataLength) pageSize :=
    hentered.behind.mono (by omega) (Nat.le_refl _)
  refine ⟨img', ?_, hcount, hdata, fun s hs => ?_, fun s hs hoccupied => ?_⟩
  · rw [place, Checked.sub_eq_ok.mpr ⟨by omega, rfl⟩, Checked.ok_bind, write_eq _ (by omega),
      Checked.ok_bind, setWord_eq _ (by decide), Checked.ok_bind, writeEntry_eq _ (by omega)]
  · split
    case isTrue heq => rw [heq, hentered.slotAt_self hheader]
    case isFalse hne => exact slotAt_congr (hinside s hs hne) (hentered.other s hs hne) hold
  · by_cases heq : s = slot
    · rw [heq, hentered.entry, hdata]
      exact ⟨by simp only; omega, by simp only; omega⟩
    · rw [hentered.other s hs heq] at hoccupied ⊢
      obtain ⟨hlow, hhigh⟩ := hinside s hs heq hoccupied
      rw [hdata]
      exact ⟨by omega, hhigh⟩

theorem place_slots (img : Image) (t : SlotTable) (row : Row)
    (hcount : img.slotCount = (t.put row).length)
    (hroom : headerSize + slotSize * img.slotCount + (img.dataLength + row.length) ≤ pageSize)
    (hbytes : t.rowBytes ≤ img.dataLength)
    (hold : ∀ s, s < img.slotCount → s ≠ t.firstFree →
      t[s]? = some (img.slotAt s) ∧ img.Inside s) :
    ∃ img', img.place t.firstFree row = .ok img' ∧ Layout img' ∧ img'.slots = t.put row := by
  have hfree : t.firstFree < img.slotCount := by
    have := t.firstFree_le_length
    rw [hcount, t.length_put]
    split <;> omega
  obtain ⟨img', hplace, hcount', hdata, hslot, hinside⟩ :=
    place_eq hfree hroom fun s hs hne => (hold s hs hne).2
  have hslots : img'.slots = t.put row := by
    refine slots_eq_of_slotAt (hcount'.trans hcount) fun s hs => ?_
    rw [← hcount] at hs
    rw [t.getElem?_put, hslot s hs]
    split
    case isTrue => rfl
    case isFalse hne => exact (hold s hs hne).1
  refine ⟨img', hplace, ⟨?_, fun s hs => hinside s (hcount' ▸ hs), ?_⟩, hslots⟩
  · rw [hcount', hdata]
    exact hroom
  · rw [hslots, t.rowBytes_put, hdata]
    omega

theorem Layout.makeGap_eq {img : Image} (h : Layout img) {need : Nat}
    (hneed : headerSize + slotSize * img.slotCount + img.slots.rowBytes + need ≤ pageSize) :
    ∃ img', img.makeGap need = .ok img' ∧ Layout img' ∧ img'.slots = img.slots ∧
      headerSize + slotSize * img.slotCount + img'.dataLength + need ≤ pageSize := by
  rw [makeGap, h.gap_eq, Checked.ok_bind]
  split
  case isTrue =>
    obtain ⟨img', hcompact, hlayout, hslots, hdata⟩ := h.compact_eq
    exact ⟨img', hcompact, hlayout, hslots, by omega⟩
  case isFalse hgap =>
    have := h.fits
    exact ⟨img, rfl, h, rfl, by omega⟩

/-- A new slot opens on whatever bytes lie behind the directory; the old slots stay as they are. -/
theorem Layout.addSlot_eq {img : Image} (h : Layout img) :
    ∃ img', img.addSlot = .ok (img.slotCount, img') ∧ img'.slotCount = img.slotCount + 1 ∧
      img'.dataLength = img.dataLength ∧
      ∀ s, s < img.slotCount → img'.slotAt s = img.slotAt s ∧ img'.Inside s := by
  have hfits := h.fits
  let img' := img.putWord 0 (img.slotCount + 1)
  have hbehind : ∀ {high}, Agree img img' 2 high := img.agree_putWord (Or.inr (Nat.le_refl _))
  have hcount : img'.slotCount = img.slotCount + 1 := by
    rw [slotCount_eq]
    exact img.wordAt_putWord_self (by decide) (by have := h.slotCount_le; omega)
  have hdata : img'.dataLength = img.dataLength := dataLength_of_agree hbehind
  have hentry : ∀ s, img'.entryAt s = img.entryAt s := fun s =>
    hbehind.entryAt_eq (Nat.le_trans (by decide) (entryStart_ge s)) (Nat.le_refl _)
  refine ⟨img', ?_, hcount, hdata, fun s hs => ⟨?_, ?_⟩⟩
  · simp only [addSlot, img.setWord_eq (show 0 + 2 ≤ pageSize by decide), Checked.ok_bind,
      Checked.pure_eq_ok, img']
  · refine slotAt_congr (h.inside s hs) (hentry s) (hbehind.mono ?_ (Nat.le_refl _))
    simp only [headerSize] at hfits
    omega
  · rw [Inside, hentry, hdata]
    exact h.inside s hs

theorem Layout.putRow_eq {img : Image} (h : Layout img) {row : Row}
    (hfits : img.slots.Fits row.length) :
    ∃ img', img.putRow row = .ok (SlotId.ofNat img.slots.firstFree, img') ∧ Layout img' ∧
      img'.slots = img.slots.put row := by
  rw [SlotTable.Fits, length_slots] at hfits
  rw [putRow, h.freeSlot?_eq, Checked.ok_bind]
  by_cases hfree : img.slots.firstFree < img.slotCount
  · rw [if_pos hfree] at hfits
    rw [if_pos hfree, slotCost, if_pos Option.isSome_some, Nat.add_zero]
    obtain ⟨gapped, hgap, hlayout, hslots, hroom⟩ := h.makeGap_eq hfits
    have hcount : gapped.slotCount = img.slotCount := by rw [← length_slots, hslots, length_slots]
    obtain ⟨img', hplace, hdone⟩ := place_slots gapped img.slots row
      (by rw [hcount, SlotTable.length_put, length_slots, if_pos hfree]) (by rw [hcount]; omega)
      (hslots ▸ hlayout.rowBytes_le)
      (fun s hs _ => ⟨by rw [← hslots, getElem?_slots, if_pos hs], hlayout.inside s hs⟩)
    refine ⟨img', ?_, hdone⟩
    rw [hgap, Checked.ok_bind]
    change (gapped.place img.slots.firstFree row >>= fun img => pure (_, img)) = _
    rw [hplace]
    rfl
  · rw [if_neg hfree] at hfits
    rw [if_neg hfree, slotCost, if_neg (by decide)]
    have hneed : headerSize + slotSize * img.slotCount + img.slots.rowBytes +
        (row.length + slotSize) ≤ pageSize := by
      rw [Nat.mul_add, Nat.mul_one] at hfits
      omega
    obtain ⟨gapped, hgap, hlayout, hslots, hroom⟩ := h.makeGap_eq hneed
    have hcount : gapped.slotCount = img.slotCount := by rw [← length_slots, hslots, length_slots]
    have hend : img.slots.firstFree = gapped.slotCount := by
      have := img.slots.firstFree_le_length
      rw [length_slots] at this
      omega
    obtain ⟨grown, hgrow, hgrown, hdata, hkept⟩ := hlayout.addSlot_eq
    obtain ⟨img', hplace, hdone⟩ := place_slots grown img.slots row
      (by rw [hgrown, hcount, SlotTable.length_put, length_slots, if_neg hfree])
      (by rw [hgrown, hdata, hcount, Nat.mul_add, Nat.mul_one]; omega)
      (by rw [hdata, ← hslots]; exact hlayout.rowBytes_le)
      (fun s hs hne => by
        have hlt : s < gapped.slotCount := by omega
        refine ⟨?_, (hkept s hlt).2⟩
        rw [← hslots, getElem?_slots, if_pos hlt, (hkept s hlt).1])
    refine ⟨img', ?_, hdone⟩
    rw [hgap, Checked.ok_bind]
    simp only [hgrow, Checked.ok_bind]
    rw [← hend, hplace]
    rfl

theorem Layout.hasRoom_short {img : Image} (h : Layout img) {row : Row}
    (hshort : row.length ≤ maxRowSize) :
    img.hasRoom row.length = .ok (decide (img.slots.Fits row.length)) := by
  simp only [maxRowSize, headerSize, slotSize, pageSize] at hshort
  exact h.hasRoom_eq (by simp only [slotSize, Checked.wordBound, UInt64.size]; omega)

/-- Room that is found is there, however long the row. -/
theorem Layout.fits_of_hasRoom {img : Image} (h : Layout img) {size : Nat}
    (hroom : img.hasRoom size = .ok true) : img.slots.Fits size := by
  have hshort : size ≤ pageSize := by
    rw [hasRoom, h.freeSlot?_eq, Checked.ok_bind, h.available_eq] at hroom
    cases hadd : Checked.add size (slotCost (if img.slots.firstFree < img.slotCount then
        some img.slots.firstFree else none)) with
    | error fault =>
      rw [hadd] at hroom
      cases hroom
    | ok need =>
      obtain ⟨-, rfl⟩ := Checked.add_eq_ok.mp hadd
      rw [hadd] at hroom
      have hle := of_decide_eq_true (Except.ok.inj hroom)
      omega
  have hsize : size + slotSize < Checked.wordBound := by
    simp only [pageSize, slotSize, Checked.wordBound, UInt64.size] at hshort ⊢
    omega
  rw [h.hasRoom_eq hsize] at hroom
  exact of_decide_eq_true (Except.ok.inj hroom)

/-- A blank page has room for every row that is not too long for all pages. -/
theorem hasRoom_blank {row : Row} (hshort : row.length ≤ maxRowSize) :
    blank.hasRoom row.length = .ok true := by
  obtain ⟨hlayout, hslots⟩ := layout_blank
  have hfits : blank.slots.Fits row.length := by
    rw [hslots]
    simp only [SlotTable.Fits, SlotTable.rowBytes_nil, maxRowSize, headerSize, slotSize, pageSize,
      List.length_nil] at hshort ⊢
    split <;> omega
  rw [hlayout.hasRoom_short hshort, decide_eq_true hfits]

theorem Layout.accepts_eq {img : Image} (h : Layout img) (row : Row) :
    img.accepts row = .ok (decide (img.slots.Fits row.length)) := by
  rw [accepts]
  split
  case isTrue hlarge =>
    have hnot : ¬ img.slots.Fits row.length := by
      simp only [SlotTable.Fits, maxRowSize, headerSize, slotSize] at hlarge ⊢
      split <;> omega
    simp [hnot]
  case isFalse hshort => exact h.hasRoom_short (Nat.le_of_not_lt hshort)

theorem Layout.on_insert {img : Image} (h : Layout img) {row : Row}
    (hfits : img.slots.Fits row.length) :
    ∃ img', (insert row).on img = (.ok (.ok (SlotId.ofNat img.slots.firstFree)), img') ∧
      Layout img' ∧ img'.slots = img.slots.put row := by
  obtain ⟨img', hput, hdone⟩ := h.putRow_eq hfits
  refine ⟨img', ?_, hdone⟩
  simp [insert, Act.on_bind, Act.on_checked, Act.on_map, h.accepts_eq, hfits, hput, Except.map]

theorem Layout.on_insert_refused {img : Image} (h : Layout img) {row : Row}
    (hfits : ¬ img.slots.Fits row.length) :
    (insert row).on img =
      (.ok (.error (.rowTooLarge row.length
        (pageSize - headerSize - slotSize * img.slotCount - img.slots.rowBytes - slotSize))),
        img) := by
  simp [insert, Act.on_bind, Act.on_checked, h.accepts_eq, hfits, h.available_eq, Except.map]

end Image

end PagedHeap
