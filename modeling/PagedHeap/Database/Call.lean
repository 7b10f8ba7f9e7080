import PagedHeap.Database.Basic

/-!
# Calls

How each call begins, and how it goes on whenever a lock is granted.  An insertion walks over the
pages that the table has when the call is made, and then appends pages until one takes the row,
for other transactions may fill an appended page before it is locked.  A scan reads pages until
it has a row to hand out.
-/

namespace PagedHeap.Database

/-! ## Row operations -/

/-- Follows the detours of the store, then tracks the page in the frame. -/
def handBack (txn : TxnId) (frame : FrameId) (reply : Reply) : List Detour → Act Database Progress
  | [] => do
    modify fun d => d.letGo (.operation txn)
    onPool (Pool.track frame txn)
    return .finished reply
  | .letGo :: rest => do
    modify fun d => d.withPool (d.pool.discard (d.pool.page frame).id)
    handBack txn frame reply rest
  | .visit page mode :: rest =>
    return .wants ⟨txn, page, mode, .detour frame rest reply⟩

def afterChange (txn : TxnId) (table : TableId) (frame : FrameId) (reply : Reply) :
    Act Database Progress := do
  modify fun d => d.hold (.operation txn) frame
  match (← get).pool.disk.store? table with
  | none => handBack txn frame reply []
  | some store => handBack txn frame reply store.detours

def insertBehind (txn : TxnId) (table : TableId) (row : Row) (route : Route) :
    Act Database Progress := do
  let page ← onPool (Pool.appendPage table)
  return .wants ⟨txn, page, .exclusive, .insert row 0 route⟩

/-- Asks for the next page to insert the row into: of the `ahead` pages from `pageNo` on, or
behind all. -/
def insertFrom (txn : TxnId) (table : TableId) (pageNo : UInt32) (row : Row) (ahead : Nat)
    (route : Route) : Act Database Progress :=
  match ahead with
  | 0 => insertBehind txn table row route
  | ahead + 1 => return .wants ⟨txn, ⟨table, pageNo⟩, .exclusive, .insert row ahead route⟩

def beginInsert (txn : TxnId) (table : TableId) (row : Row) (route : Route) :
    Act Database Progress := do
  if route = .tracked then
    let _ ← Act.ofResult ((← get).pool.disk.lookup table)
  if maxRowSize < row.length then
    throw (.rowTooLarge row.length maxRowSize)
  let count ← Act.ofResult ((← get).pool.disk.count ⟨table, 0⟩)
  insertFrom txn table 0 row count.toNat route

def insertHere (c : Call) (row : Row) (ahead : Nat) (route : Route) : Act Database Progress := do
  let frame ← onPool (Pool.fetch c.page)
  match ← onPool (Pool.placeRow frame c.txn row) with
  | none => insertFrom c.txn c.page.table (c.page.pageNo + 1) row ahead route
  | some rid =>
    match route with
    | .tracked => afterChange c.txn c.page.table frame (.inserted rid)
    | .direct => return .finished (.placed rid frame)

/-- A deletion through the given table. -/
def beginDelete (txn : TxnId) (table : TableId) (rid : RecordId) (route : Route) :
    Act Database Progress := do
  if route = .tracked then
    let _ ← Act.ofResult ((← get).pool.disk.lookup table)
  match (← get).pool.disk.store? table with
  | none => throw (.noTable table)
  | some store =>
    Act.ofResult (store.require rid.page)
    return .wants ⟨txn, rid.page, .exclusive, .delete rid.slot route⟩

def deleteHere (c : Call) (slot : SlotId) (route : Route) : Act Database Progress := do
  let frame ← onPool (Pool.fetch c.page)
  onPool (Pool.removeRow frame c.txn slot)
  match route with
  | .tracked => afterChange c.txn c.page.table frame .deleted
  | .direct => return .finished (.removed frame)

/-! ## Fetching and scanning -/

def fetchHere (c : Call) (keep : Option HandleId) : Act Database Progress := do
  let frame ← onPool (Pool.fetch c.page)
  if let some handle := keep then
    modify fun d => d.hold (.handle handle) frame
  return .finished (.fetched ((← get).pool.page frame))

/-- The reply to a scan that came to its end, or to an error. -/
def harvested (harvest : Harvest) (failure : Option Error) : Except Error Reply :=
  match harvest, failure with
  | .next, none => .ok (.row none)
  | .next, some e => .error e
  | .rest rows, failure => .ok (.rest rows failure)

/-- Ends a scan: there is no other page, or the store failed. -/
def endScan (id : CursorId) (c : Cursor) (harvest : Harvest) (failure : Option Error) :
    Act Database Progress := do
  modify fun d => d.setCursor id c.close
  return .finished (← Act.ofResult (harvested harvest failure))

/-- Asks for the page that the cursor has come to, unless it is past the last one. -/
def wantPage (id : CursorId) (c : Cursor) (harvest : Harvest) : Act Database Progress := do
  match (← get).pool.disk.count c.nextPage with
  | .error e => endScan id c harvest (some e)
  | .ok count =>
    if count ≤ c.next then
      endScan id c harvest none
    else
      modify fun d => d.setCursor id c
      return .wants ⟨c.txn, c.nextPage, .shared, .scan id harvest⟩

/-- Hands out rows that were read, or asks for the next page. -/
def scanFrom (id : CursorId) (c : Cursor) (harvest : Harvest) : Act Database Progress := do
  if c.isOpen then
    match harvest, c.pending with
    | .next, row :: rest =>
      modify fun d => d.setCursor id { c with pending := rest }
      return .finished (.row (some row))
    | .next, [] => wantPage id c .next
    | .rest rows, pending => wantPage id { c with pending := [] } (.rest (rows ++ pending))
  else
    return .finished (← Act.ofResult (harvested harvest none))

def scanHere (c : Call) (id : CursorId) (harvest : Harvest) : Act Database Progress := do
  let frame ← onPool (Pool.fetch c.page)
  let rows ← ((← get).pool.page frame).rows
  match (← get).cursors.get? id with
  | none => return .finished (← Act.ofResult (harvested harvest none))
  | some cursor => scanFrom id (cursor.accept rows) harvest

/-! ## Locks granted and refused -/

def proceed (c : Call) : Act Database Progress :=
  match c.errand with
  | .fetch keep => fetchHere c keep
  | .insert row ahead route => insertHere c row ahead route
  | .delete slot route => deleteHere c slot route
  | .detour frame rest reply => do
    let _ ← onPool (Pool.fetch c.page)
    handBack c.txn frame reply rest
  | .scan cursor harvest => scanHere c cursor harvest

/-- What becomes of a call that fails: a scan is closed, and a changed page let go of. -/
def fail (d : Database) (c : Call) (e : Error) : Except Error Reply × Database :=
  let d := d.letGo (.operation c.txn)
  match c.errand with
  | .scan cursor harvest => (harvested harvest (some e), d.updateCursor cursor Cursor.close)
  | _ => (.error e, d)

/-! ## Running -/

/-- More lock requests than the call can make before it sleeps or finishes.  It meets every page
of its table once, and an appended page is full at once only if it was cached before it was
appended. -/
def patience (d : Database) (c : Call) : Nat :=
  let ahead := match c.errand with
    | .insert _ ahead _ => ahead
    | _ => 0
  let detours := match d.pool.disk.store? c.page.table with
    | some store => store.detours.length
    | none => 0
  let rest := match c.errand with
    | .detour _ rest _ => rest.length
    | _ => 0
  ahead + (d.pool.disk.pageCount c.page.table).toNat + d.pool.buffer.size + detours + rest + 2

/-- Runs a call until it ends or falls asleep, with a bound on its lock requests. -/
def runBounded : Nat → Call → Database → Option Outcome × Database
  | 0, c, d => (some (.error .endless), d.letGo (.operation c.txn))
  | bound + 1, c, d =>
    match d.locks.request c.request with
    | (.asleep, locks) => (none, { d with locks, calls := d.calls.insert c.txn c })
    | (.deadlock, locks) =>
      let (result, d) := { d with locks }.fail c (.deadlock c.txn c.page)
      (some (.ok result), d)
    | (.granted, locks) =>
      match (proceed c).on { d with locks } with
      | (.ok (.ok (.finished reply)), d) => (some (.ok (.ok reply)), d)
      | (.ok (.ok (.wants next)), d) => runBounded bound next d
      | (.ok (.error e), d) =>
        let (result, d) := d.fail c e
        (some (.ok result), d)
      | (.error fault, d) => (some (.error fault), d.letGo (.operation c.txn))

/-- Runs a call until it ends or falls asleep; `none` says that it sleeps. -/
def run (c : Call) (d : Database) : Option Outcome × Database :=
  runBounded (d.patience c) c d

def start (act : Act Database Progress) (d : Database) : Option Outcome × Database :=
  match act.on d with
  | (.ok (.ok (.finished reply)), d) => (some (.ok (.ok reply)), d)
  | (.ok (.ok (.wants c)), d) => run c d
  | (.ok (.error e), d) => (some (.ok (.error e)), d)
  | (.error fault, d) => (some (.error fault), d)

/-- Lets the calls of woken requests go on, one after the other, and tells which ended.  A fault
ends its call only; the locks of its transaction stay. -/
def resume : List LockRequest → Database → List (TxnId × Outcome) × Database
  | [], d => ([], d)
  | r :: rest, d =>
    match d.calls.get? r.txn with
    | none => resume rest d
    | some c =>
      let (outcome, d) := run c { d with calls := d.calls.erase r.txn }
      let (outcomes, d) := resume rest d
      (match outcome with
        | some outcome => (r.txn, outcome) :: outcomes
        | none => outcomes, d)

end PagedHeap.Database
