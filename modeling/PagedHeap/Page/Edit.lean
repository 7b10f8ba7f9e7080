import PagedHeap.Act
import PagedHeap.Page.Directory

/-!
# Changing the rows of a page

A new row takes the first free slot, or a new one behind the others, and its bytes go in front
of the row data.  Deleting a row frees its slot and leaves the bytes.  When the bytes in front
of the row data do not suffice, the rows are first packed against the end of the page.
-/

namespace PagedHeap.Image

/-- Writes rows one in front of the other, the first one up to `limit`. -/
def pack : List (Nat × Row) → Nat → Image → Checked (Nat × Image)
  | [], limit, img => .ok (limit, img)
  | (slot, row) :: rest, limit, img => do
    let start ← Checked.sub limit row.length
    let img ← img.write start row
    let img ← img.writeEntry slot ⟨start, row.length⟩
    pack rest start img

/-- Packs the rows against the end of the page; every row keeps its slot. -/
def compact (img : Image) : Checked Image := do
  let found ← img.numberedRows
  let (limit, img) ← pack found pageSize img
  img.setWord 2 (pageSize - limit)

def addSlot (img : Image) : Checked (Nat × Image) := do
  let slot := img.slotCount
  return (slot, ← img.setWord 0 (slot + 1))

/-- Writes a row in front of the row data and enters it under a slot. -/
def place (img : Image) (slot : Nat) (row : Row) : Checked Image := do
  let used := img.dataLength + row.length
  let start ← Checked.sub pageSize used
  let img ← img.write start row
  let img ← img.setWord 2 used
  img.writeEntry slot ⟨start, row.length⟩

/-- Makes sure that `need` bytes lie in front of the row data. -/
def makeGap (img : Image) (need : Nat) : Checked Image := do
  if (← img.gap) < need then img.compact else return img

def putRow (img : Image) (row : Row) : Checked (SlotId × Image) := do
  let reused ← img.freeSlot?
  let img ← img.makeGap (row.length + slotCost reused)
  let (slot, img) ← match reused with
    | some slot => pure (slot, img)
    | none => img.addSlot
  return (SlotId.ofNat slot, ← img.place slot row)

def accepts (img : Image) (row : Row) : Checked Bool :=
  if maxRowSize < row.length then return false else img.hasRoom row.length

def insert (row : Row) : Act Image SlotId := do
  let img ← get
  if ← img.accepts row then
    let (slot, img) ← img.putRow row
    set img
    return slot
  else
    throw (.rowTooLarge row.length ((← img.available) - slotSize))

def delete (slot : SlotId) : Act Image Unit := do
  let img ← get
  match ← img.occupiedEntry slot with
  | .error err => throw err
  | .ok _ => set (← img.writeEntry slot.toNat Entry.free)

end PagedHeap.Image
