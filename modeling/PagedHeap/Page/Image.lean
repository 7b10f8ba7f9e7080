import PagedHeap.Checked

/-!
# Page images

The content of a page is an array of exactly 4096 bytes.  Numbers inside it are stored as two
bytes, the low one first.  Reading or writing past the end of the page is a fault.
-/

namespace PagedHeap

def pageSize : Nat := 4096

abbrev Image := Vector UInt8 pageSize

abbrev Row := List UInt8

namespace Image

/-- The image of a page that was never written. -/
def blank : Image := Vector.replicate pageSize 0

def ofBytes (bytes : Array UInt8) : Checked Image :=
  if h : bytes.size = pageSize then .ok ⟨bytes, h⟩ else .error .notOnePage

def pair (low high : UInt8) : Nat :=
  low.toNat + 256 * high.toNat

def word (img : Image) (start : Nat) : Checked Nat :=
  if h : start + 1 < pageSize then .ok (pair img[start] img[start + 1]) else .error .outOfRange

/-- The bytes from `start` up to but not including `start + length`. -/
def slice (img : Image) (start length : Nat) : Checked (List UInt8) :=
  if start + length ≤ pageSize then
    .ok (img.toArray.extract start (start + length)).toList
  else .error .outOfRange

/-- Replaces the bytes from `start` on; those that would fall behind the page are left out. -/
def overwrite (img : Image) (start : Nat) : List UInt8 → Image
  | [] => img
  | byte :: rest => overwrite (img.setIfInBounds start byte) (start + 1) rest

/-- Replaces the bytes from `start` on, if they all lie in the page. -/
def write (img : Image) (start : Nat) (bytes : List UInt8) : Checked Image :=
  if start + bytes.length ≤ pageSize then .ok (img.overwrite start bytes)
  else .error .outOfRange

def setWord (img : Image) (start value : Nat) : Checked Image :=
  img.write start [UInt8.ofNat value, UInt8.ofNat (value / 256)]

/-- The image with every byte from position `n` on cleared. -/
def truncate (img : Image) (n : Nat) : Image :=
  Vector.ofFn fun i => if i.val < n then img[i] else 0

theorem getElem_overwrite (img : Image) (start : Nat) (bytes : List UInt8) {i : Nat}
    (hi : i < pageSize) :
    (img.overwrite start bytes)[i] =
      if h : start ≤ i ∧ i < start + bytes.length then bytes[i - start] else img[i] := by
  induction bytes generalizing img start with
  | nil =>
    have : ¬ (start ≤ i ∧ i < start + ([] : List UInt8).length) := by simp
    simp only [overwrite, dif_neg this]
  | cons byte rest ih =>
    rw [overwrite, ih]
    by_cases hrest : start + 1 ≤ i ∧ i < start + 1 + rest.length
    · have hall : start ≤ i ∧ i < start + (byte :: rest).length := by
        simp only [List.length_cons]
        omega
      rw [dif_pos hrest, dif_pos hall]
      have hpos : i - start = (i - (start + 1)) + 1 := by omega
      simp only [hpos, List.getElem_cons_succ]
    · rw [dif_neg hrest, Vector.getElem_setIfInBounds]
      by_cases hstart : start = i
      · subst hstart
        simp
      · have hall : ¬ (start ≤ i ∧ i < start + (byte :: rest).length) := by
          simp only [List.length_cons]
          omega
        rw [dif_neg hall, if_neg hstart]

@[simp] theorem getElem_truncate (img : Image) (n : Nat) {i : Nat} (hi : i < pageSize) :
    (img.truncate n)[i] = if i < n then img[i] else 0 := by
  simp [truncate]

@[simp] theorem getElem_blank {i : Nat} (hi : i < pageSize) : blank[i] = 0 := by
  simp [blank]

end Image

end PagedHeap
