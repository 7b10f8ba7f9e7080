import PagedHeap.Disk.Store
import PagedHeap.Journal
import PagedHeap.Pool.Buffer

/-!
# The pool

The pool is the buffer together with what lies below it: the stores and the journal.  Whoever
asks for a page must hold its lock; that is not the pool's business.
-/

namespace PagedHeap

structure Pool where
  buffer : Buffer
  disk : Disk
  journal : Journal

namespace Pool

def withBuffer (p : Pool) (buffer : Buffer) : Pool :=
  { p with buffer }

def withDisk (p : Pool) (disk : Disk) : Pool :=
  { p with disk }

def withJournal (p : Pool) (journal : Journal) : Pool :=
  { p with journal }

def page (p : Pool) (f : FrameId) : Page :=
  p.buffer.page f

def setPage (p : Pool) (f : FrameId) (page : Page) : Pool :=
  p.withBuffer (p.buffer.setPage f page)

def discard (p : Pool) (id : PageId) : Pool :=
  p.withBuffer (p.buffer.discard id)

def readPage (id : PageId) : Act Pool Page := do
  let p ← get
  let store ← Act.ofResult (p.disk.lookup id.table)
  let (page, store) ← Act.ofResult (store.read id)
  set (p.withDisk (p.disk.put id.table store))
  return page

def writePage (page : Page) : Act Pool Unit := do
  let p ← get
  let store ← Act.ofResult (p.disk.lookup page.id.table)
  let store ← Act.ofResult (store.write page)
  set (p.withDisk (p.disk.put page.id.table store))

/-- Brings a page into the cache, as the most recently used one, and tells its frame. -/
def fetch (id : PageId) : Act Pool FrameId := do
  let p ← get
  match p.buffer.cached? id with
  | some f =>
    set (p.withBuffer (p.buffer.touch id))
    return f
  | none =>
    let page ← readPage id
    let p ← get
    let (f, buffer) := p.buffer.load page
    let buffer ← Act.ofResult (buffer.add id f)
    set (p.withBuffer buffer)
    return f

def appendPage (table : TableId) : Act Pool PageId := do
  let p ← get
  match p.disk.store? table with
  | none => throw (.noTable table)
  | some store =>
    let (id, store) ← Act.ofResult store.append
    set (p.withDisk (p.disk.put table store))
    return id

end Pool

end PagedHeap
