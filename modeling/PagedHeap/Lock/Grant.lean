import PagedHeap.Ident
import PagedHeap.Lock.Mode
import PagedHeap.SortedSet

/-!
# The lock of one page

Many transactions may hold a page in shared mode, one in exclusive mode.  A shared holder that is
alone may have its lock made exclusive.
-/

namespace PagedHeap

structure Grant where
  mode : LockMode
  holders : SortedSet TxnId

namespace Grant

def vacant : Grant := ⟨LockMode.atRest, ∅⟩

instance : Inhabited Grant := ⟨vacant⟩

/-- The transaction already holds enough for the request. -/
def satisfies (g : Grant) (txn : TxnId) (mode : LockMode) : Bool :=
  g.holders.contains txn && g.mode.covers mode

def isSoleHolder (g : Grant) (txn : TxnId) : Bool :=
  g.holders.size == 1 && g.holders.contains txn

/-- The holders that the transaction would have to wait for. -/
def blockers (g : Grant) (txn : TxnId) : List TxnId :=
  g.holders.toList.filter (· ≠ txn)

/-- The request conflicts with no other holder. -/
def admits (g : Grant) (txn : TxnId) : LockMode → Bool
  | .shared => g.holders.isEmpty || g.mode == .shared
  | .exclusive => g.holders.isEmpty || g.isSoleHolder txn

/-- The lock after it was granted to a transaction, or `none` if the transaction has to wait. -/
def grant? (g : Grant) (txn : TxnId) (mode : LockMode) : Option Grant :=
  if g.satisfies txn mode then some g
  else if g.admits txn mode then
    some {
      mode := if g.holders.isEmpty || mode == .exclusive then mode else g.mode
      holders := g.holders.insert txn }
  else none

def release (g : Grant) (txn : TxnId) : Grant :=
  let holders := g.holders.erase txn
  { mode := if holders.isEmpty then LockMode.atRest else g.mode, holders }

end Grant

end PagedHeap
