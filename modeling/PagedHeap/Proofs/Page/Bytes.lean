import PagedHeap.Page.Edit

/-!
# Reading and writing the bytes of a page

Inside the page every access succeeds, and a written stretch of bytes shows in exactly the words,
entries and slices that overlap it.
-/

namespace PagedHeap

namespace Checked

variable {α β : Type}

@[simp] theorem ok_bind (a : α) (f : α → Checked β) : (Except.ok a >>= f) = f a := rfl

@[simp] theorem pure_eq_ok (a : α) : (pure a : Checked α) = .ok a := rfl

theorem mapM_eq_ok {f : α → Checked β} {g : α → β} {l : List α} (h : ∀ a ∈ l, f a = .ok (g a)) :
    l.mapM f = .ok (l.map g) := by
  induction l with
  | nil => rfl
  | cons a rest ih =>
    rw [List.mapM_cons, h a (by simp), ih fun b hb => h b (by simp [hb])]
    rfl

end Checked

namespace Image

def byteAt (img : Image) (i : Nat) : UInt8 :=
  img[i]?.getD 0

def wordAt (img : Image) (i : Nat) : Nat :=
  pair (img.byteAt i) (img.byteAt (i + 1))

def sliceAt (img : Image) (start length : Nat) : Row :=
  (List.range' start length).map img.byteAt

def entryAt (img : Image) (slot : Nat) : Entry :=
  ⟨img.wordAt (entryStart slot), img.wordAt (entryStart slot + 2)⟩

def putWord (img : Image) (start value : Nat) : Image :=
  img.overwrite start [UInt8.ofNat value, UInt8.ofNat (value / 256)]

def putEntry (img : Image) (slot : Nat) (e : Entry) : Image :=
  (img.putWord (entryStart slot) e.start).putWord (entryStart slot + 2) e.length

theorem byteAt_of_lt (img : Image) {i : Nat} (hi : i < pageSize) : img.byteAt i = img[i] := by
  simp [byteAt, hi]

theorem slotCount_eq (img : Image) : img.slotCount = img.wordAt 0 := by
  simp [slotCount, wordAt, byteAt_of_lt _ (show 0 < pageSize by decide),
    byteAt_of_lt _ (show 1 < pageSize by decide)]

theorem dataLength_eq (img : Image) : img.dataLength = img.wordAt 2 := by
  simp [dataLength, wordAt, byteAt_of_lt _ (show 2 < pageSize by decide),
    byteAt_of_lt _ (show 3 < pageSize by decide)]

@[simp] theorem length_sliceAt (img : Image) (start length : Nat) :
    (img.sliceAt start length).length = length := by
  simp [sliceAt]

/-! ## Accesses that stay inside the page -/

theorem word_eq (img : Image) {i : Nat} (hi : i + 1 < pageSize) :
    img.word i = .ok (img.wordAt i) := by
  rw [word, dif_pos hi, wordAt, byteAt_of_lt _ (by omega), byteAt_of_lt _ hi]

theorem slice_eq (img : Image) {start length : Nat} (h : start + length ≤ pageSize) :
    img.slice start length = .ok (img.sliceAt start length) := by
  rw [slice, if_pos h]
  congr 1
  apply List.ext_getElem
  · simp only [Array.length_toList, Array.size_extract, Vector.size_toArray, length_sliceAt]
    omega
  · intro i h₁ h₂
    rw [length_sliceAt] at h₂
    simp only [sliceAt, List.getElem_map, List.getElem_range', Nat.one_mul]
    rw [byteAt_of_lt _ (by omega)]
    simp

theorem write_eq (img : Image) {start : Nat} {bytes : List UInt8}
    (h : start + bytes.length ≤ pageSize) :
    img.write start bytes = .ok (img.overwrite start bytes) :=
  if_pos h

theorem setWord_eq (img : Image) {start : Nat} (h : start + 2 ≤ pageSize) (value : Nat) :
    img.setWord start value = .ok (img.putWord start value) :=
  img.write_eq (by simpa using h)

theorem readEntry_eq (img : Image) {slot : Nat} (h : entryStart slot + 4 ≤ pageSize) :
    img.readEntry slot = .ok (img.entryAt slot) := by
  rw [readEntry, img.word_eq (by omega), img.word_eq (by omega)]
  rfl

theorem writeEntry_eq (img : Image) {slot : Nat} (h : entryStart slot + 4 ≤ pageSize) (e : Entry) :
    img.writeEntry slot e = .ok (img.putEntry slot e) := by
  rw [writeEntry, img.setWord_eq (by omega), Checked.ok_bind, setWord_eq _ (by omega)]
  rfl

/-! ## What a written stretch shows in -/

/-- Both images have the same bytes from position `low` up to `high`. -/
def Agree (img img' : Image) (low high : Nat) : Prop :=
  ∀ i, low ≤ i → i < high → img'.byteAt i = img.byteAt i

namespace Agree

variable {img img' img'' : Image} {low high : Nat}

theorem refl (img : Image) (low high : Nat) : Agree img img low high :=
  fun _ _ _ => rfl

theorem trans (h : Agree img img' low high) (h' : Agree img' img'' low high) :
    Agree img img'' low high :=
  fun i hl hh => (h' i hl hh).trans (h i hl hh)

theorem mono (h : Agree img img' low high) {low' high' : Nat} (hl : low ≤ low')
    (hh : high' ≤ high) : Agree img img' low' high' :=
  fun i h₁ h₂ => h i (by omega) (by omega)

theorem wordAt_eq (h : Agree img img' low high) {i : Nat} (hl : low ≤ i) (hh : i + 2 ≤ high) :
    img'.wordAt i = img.wordAt i := by
  rw [wordAt, wordAt, h i hl (by omega), h (i + 1) (by omega) (by omega)]

theorem entryAt_eq (h : Agree img img' low high) {slot : Nat} (hl : low ≤ entryStart slot)
    (hh : entryStart slot + 4 ≤ high) : img'.entryAt slot = img.entryAt slot := by
  rw [entryAt, entryAt, h.wordAt_eq hl (by omega), h.wordAt_eq (by omega) (by omega)]

theorem sliceAt_eq (h : Agree img img' low high) {start length : Nat} (hl : low ≤ start)
    (hh : start + length ≤ high) : img'.sliceAt start length = img.sliceAt start length := by
  refine List.map_congr_left fun i hi => ?_
  rw [List.mem_range'_1] at hi
  exact h i (by omega) (by omega)

end Agree

theorem byteAt_overwrite (img : Image) (start : Nat) (bytes : List UInt8) {i : Nat}
    (hi : i < start ∨ start + bytes.length ≤ i) :
    (img.overwrite start bytes).byteAt i = img.byteAt i := by
  by_cases hp : i < pageSize
  · rw [byteAt_of_lt _ hp, byteAt_of_lt _ hp, getElem_overwrite _ _ _ hp, dif_neg (by omega)]
  · simp [byteAt, hp]

theorem agree_overwrite (img : Image) {start : Nat} {bytes : List UInt8} {low high : Nat}
    (h : high ≤ start ∨ start + bytes.length ≤ low) :
    Agree img (img.overwrite start bytes) low high :=
  fun _ _ _ => img.byteAt_overwrite start bytes (by omega)

theorem agree_putWord (img : Image) {start value low high : Nat}
    (h : high ≤ start ∨ start + 2 ≤ low) : Agree img (img.putWord start value) low high :=
  img.agree_overwrite (by simpa using h)

theorem agree_putEntry (img : Image) {slot : Nat} {e : Entry} {low high : Nat}
    (h : high ≤ entryStart slot ∨ entryStart slot + 4 ≤ low) :
    Agree img (img.putEntry slot e) low high :=
  (img.agree_putWord (by omega)).trans (agree_putWord _ (by omega))

theorem sliceAt_overwrite_self (img : Image) {start : Nat} {bytes : List UInt8}
    (h : start + bytes.length ≤ pageSize) :
    (img.overwrite start bytes).sliceAt start bytes.length = bytes := by
  apply List.ext_getElem
  · exact length_sliceAt ..
  · intro i h₁ h₂
    simp only [sliceAt, List.getElem_map, List.getElem_range', Nat.one_mul]
    rw [byteAt_of_lt _ (by omega), getElem_overwrite _ _ _ (by omega), dif_pos (by omega)]
    simp

theorem pair_ofNat {value : Nat} (h : value < 65536) :
    pair (UInt8.ofNat value) (UInt8.ofNat (value / 256)) = value := by
  simp only [pair, UInt8.toNat_ofNat']
  omega

theorem wordAt_putWord_self (img : Image) {start value : Nat} (h : start + 2 ≤ pageSize)
    (hv : value < 65536) : (img.putWord start value).wordAt start = value := by
  have hbytes : (img.putWord start value).sliceAt start 2 =
      [UInt8.ofNat value, UInt8.ofNat (value / 256)] :=
    img.sliceAt_overwrite_self (by simpa using h)
  simp only [sliceAt, List.range'_succ, List.map_cons, List.cons.injEq] at hbytes
  rw [wordAt, hbytes.1, hbytes.2.1, pair_ofNat hv]

theorem entryAt_putEntry_self (img : Image) {slot : Nat} {e : Entry}
    (h : entryStart slot + 4 ≤ pageSize) (hs : e.start < 65536) (hl : e.length < 65536) :
    (img.putEntry slot e).entryAt slot = e := by
  have hstart : (img.putEntry slot e).wordAt (entryStart slot) = e.start := by
    rw [putEntry, (agree_putWord _ (Or.inl (Nat.le_refl _))).wordAt_eq (Nat.zero_le _) (by omega)]
    exact img.wordAt_putWord_self (by omega) hs
  have hlength : (img.putEntry slot e).wordAt (entryStart slot + 2) = e.length :=
    wordAt_putWord_self _ (by omega) hl
  rw [entryAt, hstart, hlength]

theorem entryAt_putEntry_of_ne (img : Image) {slot other : Nat} {e : Entry} (h : other ≠ slot) :
    (img.putEntry slot e).entryAt other = img.entryAt other := by
  have hs : entryStart other + 4 ≤ entryStart slot ∨ entryStart slot + 4 ≤ entryStart other := by
    simp only [entryStart, headerSize, slotSize]
    omega
  rcases hs with hs | hs
  · have hagree : Agree img (img.putEntry slot e) 0 (entryStart slot) :=
      img.agree_putEntry (Or.inl (Nat.le_refl _))
    exact hagree.entryAt_eq (Nat.zero_le _) hs
  · have hagree : Agree img (img.putEntry slot e) (entryStart slot + 4) (entryStart other + 4) :=
      img.agree_putEntry (Or.inr (Nat.le_refl _))
    exact hagree.entryAt_eq hs (Nat.le_refl _)

end Image

end PagedHeap
