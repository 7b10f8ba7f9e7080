import PagedHeap.Pool.Basic

/-!
# Rows in the pool

A row operation changes a page in its frame.  The page becomes dirty before it changes, and
afterwards is tracked: the changed frame is the cached one, whatever happened to the page in the
cache in between.
-/

namespace PagedHeap.Pool

def onPage (f : FrameId) (act : Act Page α) : Act Pool α :=
  act.within (fun p => p.page f) fun p page => p.setPage f page

def placeRow (f : FrameId) (txn : TxnId) (row : Row) : Act Pool (Option RecordId) :=
  onPage f do
    let page ← get
    if ← page.hasRoom row.length then
      set (page.markDirty txn)
      return some (← Page.insert row)
    else
      return none

def removeRow (f : FrameId) (txn : TxnId) (slot : SlotId) : Act Pool Unit :=
  onPage f do
    let page ← get
    let _ ← Act.ofResult (← page.row slot)
    set (page.markDirty txn)
    Page.delete slot

/-- Makes the changed page in a frame the cached one and the most recently used one. -/
def track (f : FrameId) (txn : TxnId) : Act Pool Unit := do
  modify fun p => p.setPage f ((p.page f).markDirty txn)
  let p ← get
  let id := (p.page f).id
  if p.buffer.isCached id then
    set (p.withBuffer (p.buffer.enter id f))
  else
    set (p.withBuffer (← Act.ofResult (p.buffer.add id f)))

end PagedHeap.Pool
