import PagedHeap.Database.Command

/-!
# The demonstration

A session of three transactions on a new table: one inserts rows and commits, one deletes a row
and aborts, one reads everything back.
-/

namespace PagedHeap.Demo

def table : TableId := ⟨1⟩

def texts : List String :=
  ["Hello, World!", "This is Quarry", "A heap file behind a two-phase locking buffer pool"]

structure Session where
  database : Database
  lines : List String

/-- A session breaks off at an error, or at an answer that does not belong to its command. -/
inductive Failure where
  | refused (e : Error)
  | faulted (f : Fault)
  | misplaced

abbrev Script (α : Type) := StateT Session (Except Failure) α

def say (line : String) : Script Unit :=
  modify fun s => { s with lines := s.lines ++ [line] }

def ask (c : Command) : Script Answer := do
  let s ← get
  let (report, database) := s.database.perform c
  set { s with database }
  match report.answer with
  | .faulted f => throw (.faulted f)
  | answer => return answer

def insert (txn : TxnId) (text : String) : Script RecordId := do
  match ← ask (.insert txn table text.toUTF8.toList .tracked) with
  | .replied (.ok (.inserted rid)) => return rid
  | .replied (.error e) => throw (.refused e)
  | _ => throw .misplaced

/-- Gives a command that has nothing to tell but success. -/
def order (c : Command) : Script Unit := do
  match ← ask c with
  | .done (.ok ()) => return
  | .replied (.ok .deleted) => return
  | .done (.error e) => throw (.refused e)
  | .replied (.error e) => throw (.refused e)
  | _ => throw .misplaced

def readAll (txn : TxnId) : Script (List (RecordId × Row)) := do
  order (.openCursor ⟨0⟩ txn table)
  match ← ask (.rest ⟨0⟩) with
  | .replied (.ok (.rest rows none)) => return rows
  | .replied (.ok (.rest _ (some e))) => throw (.refused e)
  | _ => throw .misplaced

def quote : Char := Char.ofNat 0x22

def backslash : Char := Char.ofNat 0x5c

def escape (c : Char) : List Char :=
  if c = quote || c = backslash then [backslash, c]
  else if c = '\n' then [backslash, 'n']
  else if c = '\r' then [backslash, 'r']
  else if c = '\t' then [backslash, 't']
  else [c]

def quoted (s : String) : String :=
  String.ofList ([quote] ++ s.toList.flatMap escape ++ [quote])

def rowText (row : Row) : String :=
  (String.fromUTF8? ⟨row.toArray⟩).getD ""

def session : Script Unit := do
  say "Quarry - a transactional heap storage engine"
  say "============================================"
  say ""
  let (t1, source) := ({} : TxnSource).draw
  let (t2, source) := source.draw
  let (t3, _) := source.draw
  let rids ← texts.mapM fun text => do
    let rid ← insert t1 text
    say s!"{t1.text} inserted {rid.text}"
    return rid
  order (.commit t1)
  let count := (← get).database.pool.disk.pageCount table
  say s!"{t1.text} committed; table has {count.toNat} page(s)"
  say ""
  if let some rid := rids[1]? then
    order (.delete t2 table rid .tracked)
    say s!"{t2.text} deleted {rid.text}"
  order (.abort t2)
  say s!"{t2.text} aborted"
  say ""
  say s!"{t3.text} scanning:"
  for (rid, row) in ← readAll t3 do
    say s!"  - {rid.text}: {quoted (rowText row)}"
  order (.commit t3)
  say ""
  say "Demo completed successfully!"

def run : UInt32 × List String :=
  let disk := Disk.empty.addTable table
  let start : Session := ⟨Database.create defaultCapacity Journal.fresh disk, []⟩
  match session.run start with
  | .ok ((), s) => (0, s.lines)
  | .error _ => (1, [])

end PagedHeap.Demo
