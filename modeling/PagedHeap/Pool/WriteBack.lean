import PagedHeap.Pool.Basic

/-!
# Writing pages back

A dirty page is written back behind its log record: the record is appended, the log is forced,
and only then the page goes to its store.  A commit writes back every page that the transaction
dirtied; a page that cannot be written is dropped, and the others are still attempted.
-/

namespace PagedHeap.Pool

def onJournal (act : Act Journal α) : Act Pool α :=
  act.within journal withJournal

/-- Logs a page that somebody dirtied, and writes it to its store. -/
def writeBack (page : Page) : Act Pool Unit := do
  if let some txn := page.dirtier then
    onJournal (Journal.append txn page)
    onJournal Journal.force
  writePage page
  modify fun p => p.withJournal (p.journal.record (.written page.id page.image))

/-- Writes the page in a frame back if it is dirty.  Its baseline stays what it was. -/
def flush (f : FrameId) : Act Pool Unit := do
  let page := (← get).page f
  if page.isDirty then
    writeBack page
    modify fun p => p.setPage f page.markClean

/-- Writes every dirty cached page back, in page order, up to the first failure. -/
def flushAll : Act Pool Unit := do
  (← get).buffer.cache.values.forM flush

def flushPage (id : PageId) : Act Pool Unit := do
  match (← get).buffer.cached? id with
  | some f => flush f
  | none => return

/-- Writes back those of the pages that the transaction dirtied, up to the first failure. -/
def flushOwned (txn : TxnId) (ids : List PageId) : Act Pool Unit :=
  ids.forM fun id => do
    let p ← get
    match p.buffer.cached? id with
    | some f => if (p.page f).dirtier = some txn then flush f
    | none => return

/-- Writes a page back if the transaction dirtied it, and makes what was written its baseline. -/
def settlePage (txn : TxnId) (id : PageId) : Act Pool Unit := do
  let p ← get
  match p.buffer.cached? id with
  | none => return
  | some f =>
    let page := p.page f
    if page.dirtier = some txn then
      writeBack page
      modify fun p => p.setPage f page.rebase.markClean

/-- Settles the pages of a committing transaction.  Those that fail are dropped, and listed with
what they failed for. -/
def settle (txn : TxnId) : List PageId → Act Pool (List (PageId × Error))
  | [] => return []
  | id :: rest => do
    match ← (settlePage txn id).attempt with
    | .ok () => settle txn rest
    | .error e =>
      modify fun p => p.discard id
      return (id, e) :: (← settle txn rest)

def commitResult (txn : TxnId) : List (PageId × Error) → Except Error Unit
  | [] => .ok ()
  | (id, e) :: rest => .error (.commitIncomplete txn (id :: rest.map Prod.fst) e)

def forget (p : Pool) (ids : List PageId) : Pool :=
  ids.foldl discard p

end PagedHeap.Pool
