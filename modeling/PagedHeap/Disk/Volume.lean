import PagedHeap.Disk.Medium
import PagedHeap.Page.Copy

/-!
# Volumes

The pages of one table lie in one file, page `n` at byte `n * pageSize`.  The number of pages
follows from the length of the file; a partial page at its end does not count.  Page numbers
have 32 bits, and so has their count.
-/

namespace PagedHeap

structure Volume where
  table : TableId
  medium : Medium
  /-- The pages read so far, modulo 2^32. -/
  reads : UInt32
  /-- The pages written so far, modulo 2^32. -/
  writes : UInt32

namespace Volume

def mount (table : TableId) (medium : Medium) : Volume :=
  ⟨table, medium, 0, 0⟩

def pageCount (v : Volume) : UInt32 :=
  UInt32.ofNat (v.medium.length / pageSize)

def owns (v : Volume) (id : PageId) : Bool :=
  id.table == v.table

def contains (v : Volume) (id : PageId) : Bool :=
  v.owns id && decide (id.pageNo < v.pageCount)

def image (v : Volume) (n : UInt32) : Image :=
  v.medium.block n.toNat

def require (v : Volume) (id : PageId) : Except Error Unit :=
  if v.contains id then .ok () else .error (.foreignPage id v.table)

def read (v : Volume) (id : PageId) : Except Error (Page × Volume) := do
  v.require id
  return (Page.clean id (v.image id.pageNo), { v with reads := v.reads + 1 })

/-- Writes a page at its place, extending the file if it ends before. -/
def write (v : Volume) (p : Page) : Except Error Volume :=
  if v.owns p.id then
    .ok { v with medium := v.medium.writeBlock p.id.pageNo.toNat p.image, writes := v.writes + 1 }
  else .error (.foreignPage p.id v.table)

/-- Appends an empty page and tells its identifier. -/
def append (v : Volume) : Except Error (PageId × Volume) := do
  let id : PageId := ⟨v.table, v.pageCount⟩
  let v ← v.write (Page.empty id)
  return (id, v)

def format (table : TableId) (pages : Nat) : Volume :=
  pages.fold
    (fun n _ v => (v.write (Page.empty ⟨table, UInt32.ofNat n⟩)).toOption.getD v)
    (mount table Medium.empty)

end Volume

end PagedHeap
