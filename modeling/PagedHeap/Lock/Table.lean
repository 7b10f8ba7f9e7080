import PagedHeap.Lock.Grant
import PagedHeap.WaitGraph

/-!
# The lock table

The table knows the lock of every page, the pages of every transaction, the wait-for graph, and
the requests that sleep.  A request that cannot be granted goes to sleep, unless its waiting
would close a circle.  When a page is released its sleepers wake up, in the order in which they
went to sleep, and each makes its request again.
-/

namespace PagedHeap

structure LockRequest where
  txn : TxnId
  page : PageId
  mode : LockMode
  deriving DecidableEq, Repr

inductive Verdict where
  | granted
  | asleep
  | deadlock
  deriving DecidableEq, Repr

structure LockTable where
  grants : SortedMap PageId Grant
  held : SortedMap TxnId (SortedSet PageId)
  waits : WaitGraph
  /-- The sleeping requests, the one that fell asleep first in front. -/
  sleepers : List LockRequest

namespace LockTable

def empty : LockTable := ⟨∅, ∅, ∅, []⟩

instance : EmptyCollection LockTable := ⟨empty⟩

def grantOf (l : LockTable) (page : PageId) : Grant :=
  (l.grants.get? page).getD Grant.vacant

def setGrant (l : LockTable) (page : PageId) (g : Grant) : LockTable :=
  { l with grants := l.grants.insert page g }

/-! ## Questions -/

def heldPages (l : LockTable) (txn : TxnId) : List PageId :=
  ((l.held.get? txn).getD ∅).toList

def holds (l : LockTable) (txn : TxnId) (page : PageId) (mode : LockMode) : Bool :=
  (l.grantOf page).satisfies txn mode

def info? (l : LockTable) (page : PageId) : Option (LockMode × List TxnId) :=
  let g := l.grantOf page
  if g.holders.isEmpty then none else some (g.mode, g.holders.toList)

def waitsOf (l : LockTable) (txn : TxnId) : List TxnId :=
  l.waits.waitsOf txn

def isAsleep (l : LockTable) (txn : TxnId) : Bool :=
  l.sleepers.any fun r => r.txn == txn

/-- The pages that somebody holds, in page order. -/
def locked (l : LockTable) : List (PageId × LockMode × List TxnId) :=
  l.grants.keys.filterMap fun page => (l.info? page).map fun info => (page, info)

/-- The transactions that wait beside those they wait for, in order. -/
def waiting (l : LockTable) : List (TxnId × List TxnId) :=
  l.waits.listing

def asleep (l : LockTable) : List TxnId :=
  (SortedSet.ofList (l.sleepers.map LockRequest.txn)).toList

/-! ## Requests -/

def addHeld (l : LockTable) (txn : TxnId) (page : PageId) : LockTable :=
  { l with held := l.held.insert txn (((l.held.get? txn).getD ∅).insert page) }

def removeHeld (l : LockTable) (txn : TxnId) (page : PageId) : LockTable :=
  let rest := ((l.held.get? txn).getD ∅).erase page
  { l with held := if rest.isEmpty then l.held.erase txn else l.held.insert txn rest }

def request (l : LockTable) (r : LockRequest) : Verdict × LockTable :=
  let g := l.grantOf r.page
  match g.grant? r.txn r.mode with
  | some g =>
    let l := (l.setGrant r.page g).addHeld r.txn r.page
    (.granted, { l with waits := l.waits.clear r.txn })
  | none =>
    match l.waits.setWaits r.txn (g.blockers r.txn) with
    | (true, waits) => (.asleep, { l with waits, sleepers := l.sleepers ++ [r] })
    | (false, waits) => (.deadlock, { l with waits })

def dropGrant (l : LockTable) (txn : TxnId) (page : PageId) : LockTable :=
  l.setGrant page ((l.grantOf page).release txn)

/-- Takes the requests that sleep on one of the pages off the sleepers. -/
def rouse (l : LockTable) (pages : List PageId) : List LockRequest × LockTable :=
  let (woken, rest) := l.sleepers.partition fun r => pages.contains r.page
  (woken, { l with sleepers := rest })

/-- Releases one lock.  The sleepers of the page are woken if it was held. -/
def release (l : LockTable) (txn : TxnId) (page : PageId) : List LockRequest × LockTable :=
  let wasHeld := (l.grantOf page).holders.contains txn
  let l := (l.dropGrant txn page).removeHeld txn page
  if wasHeld then l.rouse [page] else ([], l)

/-- Releases every lock of a transaction and takes it out of the wait-for graph. -/
def releaseAll (l : LockTable) (txn : TxnId) : List LockRequest × LockTable :=
  let pages := l.heldPages txn
  let l := pages.foldl (fun l page => l.dropGrant txn page) l
  { l with held := l.held.erase txn, waits := l.waits.removeTxn txn }.rouse pages

/-- Lets woken requests be made again, one after the other. -/
def retry : List LockRequest → LockTable → List (LockRequest × Verdict) × LockTable
  | [], l => ([], l)
  | r :: rest, l =>
    let (verdict, l) := l.request r
    let (verdicts, l) := retry rest l
    ((r, verdict) :: verdicts, l)

/-! ## Steps of transactions

A transaction is one thread of control: while its request sleeps it does nothing else. -/

inductive Command where
  | acquire (txn : TxnId) (page : PageId) (mode : LockMode)
  | release (txn : TxnId) (page : PageId)
  | releaseAll (txn : TxnId)
  deriving DecidableEq, Repr

def Command.txn : Command → TxnId
  | acquire txn _ _ => txn
  | release txn _ => txn
  | releaseAll txn => txn

inductive Answer where
  /-- The transaction sleeps; nothing was done. -/
  | busy
  | verdict (v : Verdict)
  | released
  deriving DecidableEq, Repr

/-- Carries a step out and tells what became of the requests that it woke. -/
def perform (l : LockTable) (c : Command) : Answer × List (LockRequest × Verdict) × LockTable :=
  if l.isAsleep c.txn then (.busy, [], l)
  else match c with
    | .acquire txn page mode =>
      let (verdict, l) := l.request ⟨txn, page, mode⟩
      (.verdict verdict, [], l)
    | .release txn page =>
      let (woken, l) := l.release txn page
      (.released, retry woken l)
    | .releaseAll txn =>
      let (woken, l) := l.releaseAll txn
      (.released, retry woken l)

end LockTable

end PagedHeap
