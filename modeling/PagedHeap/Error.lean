import PagedHeap.Ident

/-!
# Errors

What a request can be refused for, the wording of each refusal, and whether the transaction may
start over.
-/

namespace PagedHeap

inductive Error where
  /-- Waiting for the page would close a circle of waiting transactions. -/
  | deadlock (txn : TxnId) (page : PageId)
  | device (reason : String)
  | exhausted (capacity : Nat)
  | foreignPage (page : PageId) (table : TableId)
  | rowTooLarge (size capacity : Nat)
  /-- The slot lies beyond the directory. -/
  | noSlot (slot : SlotId)
  /-- The slot holds no row. -/
  | emptySlot (slot : SlotId)
  | noTable (table : TableId)
  | log (reason : String)
  /-- Some pages of a committing transaction were not written; `cause` is the first failure. -/
  | commitIncomplete (txn : TxnId) (failed : List PageId) (cause : Error)
  deriving DecidableEq, Repr

namespace Error

def message : Error → String
  | deadlock txn page => s!"{txn.text} aborted: waiting for {page.text} would deadlock"
  | device reason => s!"I/O error: {reason}"
  | exhausted capacity =>
    s!"Buffer pool exhausted: all {capacity} cached pages are dirty or in use"
  | foreignPage page table => s!"{page.text} does not belong to table {table.text}"
  | rowTooLarge size capacity =>
    s!"Row of {size} bytes exceeds page capacity of {capacity} bytes"
  | noSlot slot => s!"Invalid slot ID: {slot.toNat}"
  | emptySlot slot => s!"Slot {slot.toNat} is empty"
  | noTable table => s!"{table.text} not found"
  | log reason => s!"Log error: {reason}"
  | commitIncomplete txn failed cause =>
    s!"Commit of {txn.text} incomplete: {failed.length} page(s) not written ({cause.message})"

/-- Rolling the transaction back and starting it again may succeed. -/
def retryable : Error → Bool
  | deadlock _ _ => true
  | exhausted _ => true
  | _ => false

end Error

end PagedHeap
