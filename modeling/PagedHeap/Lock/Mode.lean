/-!
# Lock modes

A shared lock lets a transaction read a page, an exclusive lock lets it write.
-/

namespace PagedHeap

inductive LockMode where
  | shared
  | exclusive
  deriving DecidableEq, Repr

namespace LockMode

/-- Holding the first mode is enough for a request of the second. -/
def covers : LockMode → LockMode → Bool
  | exclusive, _ => true
  | shared, shared => true
  | shared, exclusive => false

/-- The mode of a lock that nobody holds. -/
def atRest : LockMode := shared

def detail : LockMode → String
  | shared => "Shared"
  | exclusive => "Exclusive"

end LockMode

end PagedHeap
