import PagedHeap.Page.Copy

/-!
# Cursors

A cursor walks over the rows of a table, page by page and slot by slot.  The rows of a page are
copied when the cursor reaches it, and handed out one by one.
-/

namespace PagedHeap

structure CursorId where
  number : Nat
  deriving DecidableEq, Repr

instance : Ranked CursorId where
  rank c := c.number
  rank_injective {a b} h := by
    obtain ⟨x⟩ := a
    obtain ⟨y⟩ := b
    have : x = y := h
    rw [this]

structure Cursor where
  txn : TxnId
  table : TableId
  /-- The number of the page to be read next. -/
  next : UInt32
  /-- The rows read but not handed out. -/
  pending : List (RecordId × Row)
  isOpen : Bool
  deriving DecidableEq

namespace Cursor

def start (txn : TxnId) (table : TableId) : Cursor :=
  ⟨txn, table, 0, [], true⟩

def rewind (c : Cursor) : Cursor :=
  start c.txn c.table

def close (c : Cursor) : Cursor :=
  { c with pending := [], isOpen := false }

def nextPage (c : Cursor) : PageId :=
  ⟨c.table, c.next⟩

/-- Takes over the rows of the page that was read. -/
def accept (c : Cursor) (rows : List (RecordId × Row)) : Cursor :=
  { c with pending := c.pending ++ rows, next := c.next + 1 }

end Cursor

end PagedHeap
