/-!
# Checked arithmetic and access

Page bytes may be damaged from outside, and then no answer makes sense: an offset may point out
of the page, a length may exceed the space it is taken from.  Such a computation stops with a
`Fault`.  A fault is not an `Error`: nobody is expected to recover from it.
-/

namespace PagedHeap

inductive Fault where
  /-- Bytes beyond the end of a page or buffer were addressed. -/
  | outOfRange
  /-- A difference of lengths fell below zero. -/
  | underflow
  /-- A sum or product left the 64-bit range. -/
  | overflow
  /-- A buffer that is not one page long was read as a page. -/
  | notOnePage
  /-- A walk over a table met ever new pages. -/
  | endless
  deriving DecidableEq, Repr

abbrev Checked (α : Type) := Except Fault α

namespace Checked

/-- One more than the largest length or count. -/
def wordBound : Nat := UInt64.size

def sub (a b : Nat) : Checked Nat :=
  if b ≤ a then .ok (a - b) else .error .underflow

def add (a b : Nat) : Checked Nat :=
  if a + b < wordBound then .ok (a + b) else .error .overflow

def mul (a b : Nat) : Checked Nat :=
  if a * b < wordBound then .ok (a * b) else .error .overflow

theorem sub_eq_ok {a b c : Nat} : sub a b = .ok c ↔ b ≤ a ∧ c = a - b := by
  unfold sub
  split <;> simp [*, eq_comm]

theorem add_eq_ok {a b c : Nat} : add a b = .ok c ↔ a + b < wordBound ∧ c = a + b := by
  unfold add
  split <;> simp [*, eq_comm]

end Checked

end PagedHeap
