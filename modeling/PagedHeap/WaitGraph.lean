import PagedHeap.Ident
import PagedHeap.SortedSet

/-!
# The wait-for graph

An edge leads from a transaction that waits to one that it waits for.  New edges that would
close a circle are refused, so that nobody ever waits for itself through others.  Whether a path
exists is found out by a depth-first search with a stack of its own; the search works on any
listing of the edges, for its answer does not depend on their order.
-/

namespace PagedHeap

/-- Transactions beside the ones they wait for, in any order. -/
abbrev Listing := List (TxnId × List TxnId)

namespace Listing

def next? (l : Listing) (t : TxnId) : Option (List TxnId) :=
  l.lookup t

def unvisited (l : Listing) (visited : List TxnId) : List TxnId :=
  (l.map Prod.fst).filter (· ∉ visited)

theorem length_unvisited_cons_le (l : Listing) (visited : List TxnId) (t : TxnId) :
    (l.unvisited (t :: visited)).length ≤ (l.unvisited visited).length := by
  simp only [unvisited, ← List.countP_eq_length_filter]
  refine List.countP_mono_left fun a _ h => ?_
  simp only [List.mem_cons, decide_eq_true_eq] at h ⊢
  exact fun hmem => h (Or.inr hmem)

theorem length_unvisited_cons_lt {l : Listing} {visited : List TxnId} {t : TxnId}
    (hlisted : t ∈ l.map Prod.fst) (hnew : t ∉ visited) :
    (l.unvisited (t :: visited)).length < (l.unvisited visited).length := by
  have hsub : l.unvisited (t :: visited) = (l.unvisited visited).filter (· ≠ t) := by
    simp only [unvisited, List.filter_filter]
    congr 1
    funext a
    simp [List.mem_cons, not_or, Bool.decide_and]
  rw [hsub]
  exact List.length_filter_lt_length_iff_exists.mpr
    ⟨t, by simp [unvisited, hnew] at hlisted ⊢; exact hlisted, by simp⟩

theorem mem_of_next? {l : Listing} {t : TxnId} {ts : List TxnId} (h : l.next? t = some ts) :
    t ∈ l.map Prod.fst := by
  induction l with
  | nil => simp [next?] at h
  | cons head rest ih =>
    rw [next?, List.lookup_cons] at h
    by_cases ht : t == head.1
    · simp [eq_of_beq ht]
    · simp only [ht] at h
      exact List.mem_cons_of_mem _ (ih h)

/-- More than any transaction waits for. -/
def breadth (l : Listing) : Nat :=
  l.foldr (fun entry n => entry.2.length + n) 0 + 1

theorem length_lt_breadth {l : Listing} {t : TxnId} {ts : List TxnId} (h : l.next? t = some ts) :
    ts.length < l.breadth := by
  refine Nat.lt_succ_of_le ?_
  induction l with
  | nil => simp [next?] at h
  | cons head rest ih =>
    rw [next?, List.lookup_cons] at h
    rw [List.foldr_cons]
    by_cases ht : t == head.1
    · simp only [ht, Option.some.injEq] at h
      exact h ▸ Nat.le_add_right _ _
    · simp only [ht] at h
      exact Nat.le_trans (ih h) (Nat.le_add_left _ _)

/-- Pops transactions off the stack until `goal` comes up.  A transaction met for the first time
leaves those it waits for on the stack in its place. -/
def search (l : Listing) (goal : TxnId) (visited : List TxnId) : List TxnId → Bool
  | [] => false
  | t :: stack =>
    if t = goal then true
    else if _ : t ∈ visited then search l goal visited stack
    else match _ : l.next? t with
      | none => search l goal (t :: visited) stack
      | some ts => search l goal (t :: visited) (ts.filter (· ∉ t :: visited) ++ stack)
termination_by stack => (l.unvisited visited).length * l.breadth + stack.length
decreasing_by
  · exact Nat.add_lt_add_left (Nat.lt_succ_self _) _
  · have hle := Nat.mul_le_mul_right l.breadth (length_unvisited_cons_le l visited t)
    exact Nat.add_lt_add_of_le_of_lt hle (Nat.lt_succ_self _)
  · have hlt := length_unvisited_cons_lt (mem_of_next? ‹_›) ‹t ∉ visited›
    have hmul := Nat.mul_le_mul_right l.breadth (Nat.succ_le_of_lt hlt)
    have hpushed := Nat.lt_of_le_of_lt (List.length_filter_le (· ∉ t :: visited) ts)
      (length_lt_breadth ‹_›)
    rw [Nat.succ_mul] at hmul
    simp only [List.length_append, List.length_cons]
    omega

/-- A path of at least one edge leads from `start` to `goal`. -/
def reaches (l : Listing) (start goal : TxnId) : Bool :=
  match l.next? start with
  | none => false
  | some ts => l.search goal [] ts

end Listing

structure WaitGraph where
  edges : SortedMap TxnId (SortedSet TxnId)

namespace WaitGraph

def empty : WaitGraph := ⟨∅⟩

instance : EmptyCollection WaitGraph := ⟨empty⟩

def out (g : WaitGraph) (t : TxnId) : SortedSet TxnId :=
  (g.edges.get? t).getD ∅

def waitsOf (g : WaitGraph) (t : TxnId) : List TxnId :=
  (g.out t).toList

def listing (g : WaitGraph) : Listing :=
  g.edges.entries.map fun (t, ts) => (t, ts.toList)

def reaches (g : WaitGraph) (start goal : TxnId) : Bool :=
  g.listing.reaches start goal

def clear (g : WaitGraph) (t : TxnId) : WaitGraph :=
  ⟨g.edges.erase t⟩

/-- Some transaction of `ts` was not waited for by `t` before. -/
def grows (g : WaitGraph) (t : TxnId) (ts : SortedSet TxnId) : Bool :=
  match g.edges.get? t with
  | some old => !ts.subset old
  | none => !ts.isEmpty

/-- Makes `ts` all that `t` waits for. -/
def replace (g : WaitGraph) (t : TxnId) (ts : SortedSet TxnId) : WaitGraph :=
  if ts.isEmpty then g.clear t else ⟨g.edges.insert t ts⟩

/-- Lets `t` wait for the holders other than itself, and nobody else.  If that closes a circle,
`t` waits for nobody and the answer is false.  Fewer edges close no circle, so the search is made
only when edges are added. -/
def setWaits (g : WaitGraph) (t : TxnId) (holders : List TxnId) : Bool × WaitGraph :=
  let ts := SortedSet.ofList (holders.filter (· ≠ t))
  let waiting := g.replace t ts
  if g.grows t ts && waiting.reaches t t then (false, waiting.clear t) else (true, waiting)

/-- Removes a transaction, as one that waits and as one that is waited for. -/
def removeTxn (g : WaitGraph) (t : TxnId) : WaitGraph :=
  ⟨(g.edges.erase t).filterMap fun _ ts =>
    let rest := ts.erase t
    if rest.isEmpty then none else some rest⟩

def edgeCount (g : WaitGraph) : Nat :=
  g.edges.values.foldr (fun ts n => ts.size + n) 0

def isEmpty (g : WaitGraph) : Bool :=
  g.edges.isEmpty

end WaitGraph

end PagedHeap
