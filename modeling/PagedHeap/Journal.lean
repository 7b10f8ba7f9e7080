import PagedHeap.Page.Copy

/-!
# The journal

Before a dirty page is written back, a record with its baseline and its new content is appended
to the log, and the log is forced.  The log may refuse either duty at any call.  The journal keeps
what was appended, forced and written back, in the order in which it happened.
-/

namespace PagedHeap

structure UpdateRecord where
  txn : TxnId
  page : PageId
  before : Image
  after : Image
  deriving DecidableEq

inductive JournalEntry where
  | update (r : UpdateRecord)
  | force
  | written (page : PageId) (image : Image)
  deriving DecidableEq

inductive LogDuty where
  | append
  | force
  deriving DecidableEq

/-- What the log says to a call, by the number of the call: nothing, or why it refuses. -/
abbrev Verdicts := Nat → LogDuty → Option Error

structure Journal where
  verdicts : Verdicts
  /-- The calls made to the log so far. -/
  calls : Nat
  entries : List JournalEntry

namespace Journal

/-- The journal of a log that refuses nothing. -/
def fresh : Journal := ⟨fun _ _ => none, 0, []⟩

def record (j : Journal) (e : JournalEntry) : Journal :=
  { j with entries := j.entries ++ [e] }

/-- Calls the log for a duty. -/
def call (duty : LogDuty) : Act Journal Unit := do
  let j ← get
  set { j with calls := j.calls + 1 }
  if let some e := j.verdicts j.calls duty then throw e

/-- Appends the record of a dirty page to the log. -/
def append (txn : TxnId) (p : Page) : Act Journal Unit := do
  call .append
  modify fun j => j.record (.update ⟨txn, p.id, p.baseline, p.image⟩)

def force : Act Journal Unit := do
  call .force
  modify fun j => j.record .force

def take (j : Journal) : List JournalEntry × Journal :=
  (j.entries, { j with entries := [] })

end Journal

end PagedHeap
