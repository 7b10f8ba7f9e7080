import PagedHeap.Error
import PagedHeap.Page.Image

/-!
# The slot directory

A page opens with a header: the number of slots and the number of bytes that row data takes up
at the end of the page.  The directory follows, four bytes a slot: where its row starts and how
long it is.  A row never starts inside the header, so a start of 0 marks a free slot, and an all
zero page is an empty one.
-/

namespace PagedHeap

def headerSize : Nat := 4

def slotSize : Nat := 4

/-- The largest row that an empty page can hold. -/
def maxRowSize : Nat := pageSize - headerSize - slotSize

structure Entry where
  start : Nat
  length : Nat
  deriving DecidableEq, Repr

namespace Entry

def free : Entry := ⟨0, 0⟩

def isFree (e : Entry) : Bool :=
  e.start == 0

end Entry

namespace Image

def slotCount (img : Image) : Nat :=
  pair img[0] img[1]

/-- The bytes of row data at the end of the page, those of deleted rows included. -/
def dataLength (img : Image) : Nat :=
  pair img[2] img[3]

def entryStart (slot : Nat) : Nat :=
  headerSize + slot * slotSize

def readEntry (img : Image) (slot : Nat) : Checked Entry := do
  let start ← img.word (entryStart slot)
  let length ← img.word (entryStart slot + 2)
  return ⟨start, length⟩

def writeEntry (img : Image) (slot : Nat) (e : Entry) : Checked Image := do
  let img ← img.setWord (entryStart slot) e.start
  img.setWord (entryStart slot + 2) e.length

def directory (img : Image) : Checked (List Entry) :=
  (List.range img.slotCount).mapM img.readEntry

def occupied (img : Image) : Checked (List (Nat × Entry)) := do
  let entries ← img.directory
  return entries.zipIdx.filterMap fun (e, slot) => if e.isFree then none else some (slot, e)

def occupiedEntry (img : Image) (slot : SlotId) : Checked (Except Error Entry) :=
  if img.slotCount ≤ slot.toNat then return .error (.noSlot slot)
  else do
    let e ← img.readEntry slot.toNat
    return if e.isFree then .error (.emptySlot slot) else .ok e

def freeSlot? (img : Image) : Checked (Option Nat) := do
  let entries ← img.directory
  return entries.findIdx? Entry.isFree

/-! ## Rows -/

def rowAt (img : Image) (e : Entry) : Checked Row :=
  img.slice e.start e.length

def row (img : Image) (slot : SlotId) : Checked (Except Error Row) := do
  match ← img.occupiedEntry slot with
  | .error err => return .error err
  | .ok e => return .ok (← img.rowAt e)

/-- The rows under their slot numbers, in slot order. -/
def numberedRows (img : Image) : Checked (List (Nat × Row)) := do
  let slots ← img.occupied
  slots.mapM fun (slot, e) => do return (slot, ← img.rowAt e)

def rows (img : Image) : Checked (List (SlotId × Row)) := do
  let found ← img.numberedRows
  return found.map fun (slot, row) => (SlotId.ofNat slot, row)

def rowCount (img : Image) : Checked Nat := do
  return (← img.occupied).length

/-! ## Space -/

/-- The bytes between the directory and the row data. -/
def gap (img : Image) : Checked Nat := do
  let behindDirectory ← Checked.sub (pageSize - headerSize) (img.slotCount * slotSize)
  return behindDirectory - img.dataLength

/-- The bytes that compaction wins back from deleted rows. -/
def deadBytes (img : Image) : Checked Nat := do
  let slots ← img.occupied
  Checked.sub img.dataLength (slots.foldr (fun (_, e) n => e.length + n) 0)

/-- All bytes that rows can still take up. -/
def available (img : Image) : Checked Nat := do
  return (← img.gap) + (← img.deadBytes)

/-- What a new row needs besides its bytes: nothing if it can reuse a slot. -/
def slotCost (reused : Option Nat) : Nat :=
  if reused.isSome then 0 else slotSize

def hasRoom (img : Image) (size : Nat) : Checked Bool := do
  let need ← Checked.add size (slotCost (← img.freeSlot?))
  return decide (need ≤ (← img.available))

end Image

end PagedHeap
