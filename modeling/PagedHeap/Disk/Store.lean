import PagedHeap.Disk.Volume
import PagedHeap.Lock.Mode
import PagedHeap.SortedSet

/-!
# Stores and the catalog

A store gives access to a volume on a device that may fail at some pages, whatever is asked of it.
It may also have business of its own between changing a page and handing it back: let go of the
page, or visit others for the same transaction.  The catalog says which stores can be found under
their table.
-/

namespace PagedHeap

/-- What a store does between changing a page and handing it back. -/
inductive Detour where
  /-- The changed page is dropped from the cache. -/
  | letGo
  /-- A page is fetched, with a lock of its own. -/
  | visit (page : PageId) (mode : LockMode := .shared)
  deriving DecidableEq

/-- The pages at which a device fails, by what is asked of it. -/
structure Faults where
  unreadable : List UInt32 := []
  unwritable : List UInt32 := []
  /-- The file cannot be extended by these pages. -/
  unappendable : List UInt32 := []
  /-- The length of the file is not told when it is asked for because of these pages. -/
  unmeasured : List UInt32 := []
  deriving DecidableEq

structure Store where
  volume : Volume
  faults : Faults := {}
  detours : List Detour := []

namespace Store

/-- Asks for the length of the file, because of a page. -/
def measure (s : Store) (pageNo : UInt32) : Except Error Unit :=
  if s.faults.unmeasured.contains pageNo then .error (.device "length unknown") else .ok ()

def require (s : Store) (id : PageId) : Except Error Unit := do
  if s.volume.owns id then s.measure id.pageNo
  s.volume.require id

def read (s : Store) (id : PageId) : Except Error (Page × Store) := do
  if s.faults.unreadable.contains id.pageNo then throw (.device "bad sector")
  s.require id
  let (page, volume) ← s.volume.read id
  return (page, { s with volume })

def write (s : Store) (p : Page) : Except Error Store := do
  if s.faults.unwritable.contains p.id.pageNo then throw (.device "disk full")
  let volume ← s.volume.write p
  return { s with volume }

def append (s : Store) : Except Error (PageId × Store) := do
  if s.faults.unappendable.contains s.volume.pageCount then throw (.device "disk full")
  let (id, volume) ← s.volume.append
  return (id, { s with volume })

/-- The store on the same file, as if opened afresh. -/
def remount (s : Store) : Store :=
  { volume := Volume.mount s.volume.table s.volume.medium }

end Store

structure Disk where
  stores : SortedMap TableId Store
  catalog : SortedSet TableId

namespace Disk

def empty : Disk := ⟨∅, ∅⟩

instance : EmptyCollection Disk := ⟨empty⟩

def store? (d : Disk) (table : TableId) : Option Store :=
  d.stores.get? table

/-- The store that the catalog knows under a table. -/
def lookup (d : Disk) (table : TableId) : Except Error Store :=
  match d.catalog.contains table, d.store? table with
  | true, some s => .ok s
  | _, _ => .error (.noTable table)

def put (d : Disk) (table : TableId) (s : Store) : Disk :=
  { d with stores := d.stores.insert table s }

def update (d : Disk) (table : TableId) (f : Store → Store) : Disk :=
  match d.store? table with
  | some s => d.put table (f s)
  | none => d

def pageCount (d : Disk) (table : TableId) : UInt32 :=
  match d.store? table with
  | some s => s.volume.pageCount
  | none => 0

/-- The number of pages of the table, asked for because of a page. -/
def count (d : Disk) (id : PageId) : Except Error UInt32 := do
  if let some s := d.store? id.table then s.measure id.pageNo
  return d.pageCount id.table

/-- Enters a table into the catalog, with an empty file if it has none. -/
def addTable (d : Disk) (table : TableId) : Disk :=
  let d := if d.stores.contains table then d
    else d.put table { volume := Volume.mount table Medium.empty }
  { d with catalog := d.catalog.insert table }

/-- Takes a table out of the catalog; its file stays. -/
def removeTable (d : Disk) (table : TableId) : Disk :=
  { d with catalog := d.catalog.erase table }

def format (d : Disk) (table : TableId) (pages : Nat) : Disk :=
  (d.put table { volume := Volume.format table pages }).addTable table

/-- The same files opened afresh, every table in the catalog. -/
def remount (d : Disk) : Disk where
  stores := d.stores.filterMap fun _ s => some s.remount
  catalog := SortedSet.ofList d.stores.keys

end Disk

end PagedHeap
