import PagedHeap.Database.Call
import PagedHeap.Pool.WriteBack

/-!
# Commands

All that can be asked of a database.  A transaction is one thread of control: while its call
sleeps, nothing else is done for it, and its cursors rest.  Releasing locks wakes the calls that
sleep on them; they go on before the next command.  A fault ends the call that it struck, and no
command is carried out after it.
-/

namespace PagedHeap

inductive Command where
  | fetch (txn : TxnId) (page : PageId) (mode : LockMode) (keep : Option HandleId)
  | insert (txn : TxnId) (table : TableId) (row : Row) (route : Route)
  | delete (txn : TxnId) (table : TableId) (rid : RecordId) (route : Route)
  | commit (txn : TxnId)
  | abort (txn : TxnId)
  /-- Release one lock before the transaction ends. -/
  | release (txn : TxnId) (page : PageId)
  | flushAll
  | flushPage (page : PageId)
  /-- Write back what a transaction dirtied, without ending it. -/
  | flushOwned (txn : TxnId)
  | discard (page : PageId)
  | openCursor (cursor : CursorId) (txn : TxnId) (table : TableId)
  /-- Open the cursor again, in front of the first page. -/
  | rewindCursor (cursor : CursorId)
  | closeCursor (cursor : CursorId)
  | next (cursor : CursorId)
  | rest (cursor : CursorId)
  | edit (handle : HandleId) (page : Page)
  | dropHandle (handle : HandleId)
  /-- Read a page from a store, past the pool. -/
  | inspect (table : TableId) (page : PageId)
  /-- Write a page to a store, past the pool. -/
  | implant (table : TableId) (page : Page)
  | setFaults (table : TableId) (faults : Faults)
  | setDetours (table : TableId) (detours : List Detour)
  | setVerdicts (verdicts : Verdicts)
  | addTable (table : TableId)
  | removeTable (table : TableId)
  /-- Cut or extend a file from outside. -/
  | resizeFile (table : TableId) (length : Nat)
  | patchFile (table : TableId) (start : Nat) (bytes : List UInt8)
  /-- Forget all that is in memory and open the same files again. -/
  | reopen (capacity : Nat)

inductive Answer where
  /-- A transaction sleeps whose turn it would be; nothing was done. -/
  | busy
  | asleep
  | replied (result : Except Error Reply)
  | done (result : Except Error Unit)
  | faulted (f : Fault)

structure Report where
  answer : Answer
  /-- The sleeping calls that came to their end. -/
  finished : List (TxnId × Outcome) := []

/-- A fault struck the command or a call that it woke. -/
def Report.isFaulty (r : Report) : Bool :=
  (match r.answer with
    | .faulted _ => true
    | _ => false) || r.finished.any fun (_, outcome) => !outcome.toBool

namespace Database

/-! ## Who has to wait -/

def isAsleep (d : Database) (txn : TxnId) : Bool :=
  d.locks.isAsleep txn

def rests (d : Database) (cursor : CursorId) : Bool :=
  match d.cursors.get? cursor with
  | some c => d.isAsleep c.txn
  | none => false

def isBusy (d : Database) : Command → Bool
  | .fetch txn _ _ _ => d.isAsleep txn
  | .insert txn _ _ _ => d.isAsleep txn
  | .delete txn _ _ _ => d.isAsleep txn
  | .commit txn => d.isAsleep txn
  | .abort txn => d.isAsleep txn
  | .release txn _ => d.isAsleep txn
  | .flushOwned txn => d.isAsleep txn
  | .openCursor cursor txn _ => d.isAsleep txn || d.rests cursor
  | .rewindCursor cursor => d.rests cursor
  | .closeCursor cursor => d.rests cursor
  | .next cursor => d.rests cursor
  | .rest cursor => d.rests cursor
  | .reopen _ => !d.locks.sleepers.isEmpty
  | _ => false

/-! ## Carrying commands out -/

def call (d : Database) (act : Act Database Progress) : Report × Database :=
  match start act d with
  | (some (.ok result), d) => ({ answer := .replied result }, d)
  | (some (.error fault), d) => ({ answer := .faulted fault }, d)
  | (none, d) => ({ answer := .asleep }, d)

def atOnce (d : Database) (act : Act Pool Unit) : Report × Database :=
  match (onPool act).on d with
  | (.ok result, d) => ({ answer := .done result }, d)
  | (.error fault, d) => ({ answer := .faulted fault }, d)

def noted (d : Database) : Report × Database :=
  ({ answer := .done (.ok ()) }, d)

def wake (d : Database) (woken : List LockRequest) (result : Except Error Unit) :
    Report × Database :=
  let (finished, d) := resume woken d
  ({ answer := .done result, finished }, d)

def releaseAll (d : Database) (txn : TxnId) (result : Except Error Unit) : Report × Database :=
  let (woken, locks) := d.locks.releaseAll txn
  { d with locks }.wake woken result

def commit (d : Database) (txn : TxnId) : Report × Database :=
  match (onPool (Pool.settle txn (d.locks.heldPages txn))).on d with
  | (.ok (.ok failures), d) => d.releaseAll txn (Pool.commitResult txn failures)
  | (.ok (.error e), d) => d.releaseAll txn (.error e)
  | (.error fault, d) => ({ answer := .faulted fault }, d)

def abort (d : Database) (txn : TxnId) : Report × Database :=
  (d.withPool (d.pool.forget (d.locks.heldPages txn))).releaseAll txn (.ok ())

def release (d : Database) (txn : TxnId) (page : PageId) : Report × Database :=
  let (woken, locks) := d.locks.release txn page
  { d with locks }.wake woken (.ok ())

def scan (d : Database) (cursor : CursorId) (harvest : Harvest) : Report × Database :=
  match d.cursors.get? cursor with
  | some c => d.call (scanFrom cursor c harvest)
  | none => d.call do return .finished (← Act.ofResult (harvested harvest none))

def kept? (d : Database) (handle : HandleId) : Option FrameId :=
  d.pool.buffer.holders.get? (.handle handle)

def edit (d : Database) (handle : HandleId) (page : Page) : Database :=
  match d.kept? handle with
  | some f => d.withPool (d.pool.setPage f page)
  | none => d

def updateStore (d : Database) (table : TableId) (f : Store → Store) : Database :=
  d.withPool (d.pool.withDisk (d.pool.disk.update table f))

def updateMedium (d : Database) (table : TableId) (f : Medium → Medium) : Database :=
  d.updateStore table fun s => { s with volume := { s.volume with medium := f s.volume.medium } }

def inspect (d : Database) (table : TableId) (page : PageId) : Report × Database :=
  d.call (onPool do
    let p ← get
    match p.disk.store? table with
    | none => throw (.noTable table)
    | some store =>
      let (page, store) ← Act.ofResult (store.read page)
      set (p.withDisk (p.disk.put table store))
      return .finished (.fetched page))

def implant (d : Database) (table : TableId) (page : Page) : Report × Database :=
  d.atOnce do
    let p ← get
    match p.disk.store? table with
    | none => throw (.noTable table)
    | some store =>
      let store ← Act.ofResult (store.write page)
      set (p.withDisk (p.disk.put table store))

def reopened (d : Database) (capacity : Nat) : Database :=
  create capacity d.pool.journal d.pool.disk.remount

def carryOut (d : Database) : Command → Report × Database
  | .fetch txn page mode keep => d.call (return .wants ⟨txn, page, mode, .fetch keep⟩)
  | .insert txn table row route => d.call (beginInsert txn table row route)
  | .delete txn table rid route => d.call (beginDelete txn table rid route)
  | .commit txn => d.commit txn
  | .abort txn => d.abort txn
  | .release txn page => d.release txn page
  | .flushAll => d.atOnce Pool.flushAll
  | .flushPage page => d.atOnce (Pool.flushPage page)
  | .flushOwned txn => d.atOnce (Pool.flushOwned txn (d.locks.heldPages txn))
  | .discard page => (d.withPool (d.pool.discard page)).noted
  | .openCursor cursor txn table => (d.setCursor cursor (Cursor.start txn table)).noted
  | .rewindCursor cursor => (d.updateCursor cursor Cursor.rewind).noted
  | .closeCursor cursor => (d.updateCursor cursor Cursor.close).noted
  | .next cursor => d.scan cursor .next
  | .rest cursor => d.scan cursor (.rest [])
  | .edit handle page => (d.edit handle page).noted
  | .dropHandle handle => (d.letGo (.handle handle)).noted
  | .inspect table page => d.inspect table page
  | .implant table page => d.implant table page
  | .setFaults table faults => (d.updateStore table fun s => { s with faults }).noted
  | .setDetours table detours => (d.updateStore table fun s => { s with detours }).noted
  | .setVerdicts verdicts =>
    (d.withPool (d.pool.withJournal { d.pool.journal with verdicts })).noted
  | .addTable table => (d.withPool (d.pool.withDisk (d.pool.disk.addTable table))).noted
  | .removeTable table => (d.withPool (d.pool.withDisk (d.pool.disk.removeTable table))).noted
  | .resizeFile table length => (d.updateMedium table fun m => m.resize length).noted
  | .patchFile table start bytes => (d.updateMedium table fun m => m.patch start bytes).noted
  | .reopen capacity => (d.reopened capacity).noted

def perform (d : Database) (c : Command) : Report × Database :=
  if d.isBusy c then ({ answer := .busy }, d) else d.carryOut c

/-- Carries commands out one after the other, up to the first fault. -/
def performAll : List Command → Database → List Report × Database
  | [], d => ([], d)
  | c :: rest, d =>
    let (report, d) := d.perform c
    if report.isFaulty then ([report], d)
    else
      let (reports, d) := performAll rest d
      (report :: reports, d)

def takeJournal (d : Database) : List JournalEntry × Database :=
  let (entries, journal) := d.pool.journal.take
  (entries, d.withPool (d.pool.withJournal journal))

end Database

end PagedHeap
