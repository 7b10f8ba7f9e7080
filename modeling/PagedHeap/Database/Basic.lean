import PagedHeap.Cursor
import PagedHeap.Lock.Table
import PagedHeap.Pool.Rows

/-!
# The database

The pool, the lock table, the cursors, and the calls that sleep.  A call is a request of a
transaction that needs locks: it asks for one lock at a time, and what it does once the lock is
granted is its errand.  A call whose lock is not granted sleeps as a value, and goes on from
there when its lock request is made again.
-/

namespace PagedHeap

inductive Route where
  /-- Through the catalog; the changed page is tracked. -/
  | tracked
  /-- Straight to the volume of the table; the changed page is handed to the caller. -/
  | direct
  deriving DecidableEq, Repr

inductive Reply where
  | fetched (page : Page)
  | inserted (rid : RecordId)
  | placed (rid : RecordId) (frame : FrameId)
  | deleted
  | removed (frame : FrameId)
  /-- The next row of a scan, or its end. -/
  | row (next : Option (RecordId × Row))
  /-- The rows that were left of a scan, and what ended it if it did not end by itself. -/
  | rest (rows : List (RecordId × Row)) (failure : Option Error)
  deriving DecidableEq

/-- How a call came to its end. -/
abbrev Outcome := Checked (Except Error Reply)

inductive Harvest where
  | next
  /-- Everything that is left; the rows read so far. -/
  | rest (rows : List (RecordId × Row))
  deriving DecidableEq

inductive Errand where
  | fetch (keep : Option HandleId)
  /-- Insert a row into the page or one behind it; `ahead` pages of the walk come after it. -/
  | insert (row : Row) (ahead : Nat) (route : Route)
  | delete (slot : SlotId) (route : Route)
  | detour (frame : FrameId) (rest : List Detour) (reply : Reply)
  | scan (cursor : CursorId) (harvest : Harvest)
  deriving DecidableEq

structure Call where
  txn : TxnId
  page : PageId
  mode : LockMode
  errand : Errand
  deriving DecidableEq

def Call.request (c : Call) : LockRequest :=
  ⟨c.txn, c.page, c.mode⟩

/-- A call has finished, or needs another lock. -/
inductive Progress where
  | finished (reply : Reply)
  | wants (call : Call)
  deriving DecidableEq

structure Database where
  pool : Pool
  locks : LockTable
  cursors : SortedMap CursorId Cursor
  /-- The sleeping calls. -/
  calls : SortedMap TxnId Call

namespace Database

def create (capacity : Nat) (journal : Journal) (disk : Disk) : Database where
  pool := ⟨Buffer.empty capacity, disk, journal⟩
  locks := ∅
  cursors := ∅
  calls := ∅

def withPool (d : Database) (pool : Pool) : Database :=
  { d with pool }

def onPool (act : Act Pool α) : Act Database α :=
  act.within pool withPool

def setCursor (d : Database) (id : CursorId) (c : Cursor) : Database :=
  { d with cursors := d.cursors.insert id c }

def updateCursor (d : Database) (id : CursorId) (f : Cursor → Cursor) : Database :=
  match d.cursors.get? id with
  | some c => d.setCursor id (f c)
  | none => d

def hold (d : Database) (who : Holder) (f : FrameId) : Database :=
  d.withPool (d.pool.withBuffer (d.pool.buffer.hold who f))

def letGo (d : Database) (who : Holder) : Database :=
  d.withPool (d.pool.withBuffer (d.pool.buffer.letGo who))

end Database

end PagedHeap
