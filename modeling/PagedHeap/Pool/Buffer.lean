import PagedHeap.Page.Copy
import PagedHeap.Recency

/-!
# The buffer

The buffer holds pages in frames.  Up to `capacity` of them are cached under their page
identifiers; a frame that left the cache lives on as long as somebody refers to it, and may then
differ from a frame cached later for the same page.  When room is needed, the least recently
used page goes that is clean and that nobody outside the cache refers to.
-/

namespace PagedHeap

/-- The number of a frame; no number is used twice. -/
structure FrameId where
  number : Nat
  deriving DecidableEq, Repr

/-- A client's name for a page that it keeps. -/
structure HandleId where
  number : Nat
  deriving DecidableEq, Repr

inductive Holder where
  | handle (h : HandleId)
  /-- The row operation that a transaction is in the middle of. -/
  | operation (txn : TxnId)
  deriving DecidableEq

instance : Ranked Holder where
  rank
    | .handle h => 2 * h.number
    | .operation txn => 2 * rank txn + 1
  rank_injective {a b} h := by
    cases a with
    | handle x =>
      cases b with
      | handle y =>
        obtain ⟨x⟩ := x
        obtain ⟨y⟩ := y
        have : x = y := by
          simp only at h
          omega
        rw [this]
      | operation t =>
        simp only at h
        omega
    | operation s =>
      cases b with
      | handle y =>
        simp only at h
        omega
      | operation t =>
        have : rank s = rank t := by
          simp only at h
          omega
        rw [rank_inj.mp this]

def defaultCapacity : Nat := 50

structure Buffer where
  capacity : Nat
  frames : Array Page
  cache : SortedMap PageId FrameId
  recency : Recency
  holders : SortedMap Holder FrameId

namespace Buffer

def empty (capacity : Nat) : Buffer :=
  ⟨capacity, #[], ∅, ∅, ∅⟩

/-! ## Frames -/

def page (b : Buffer) (f : FrameId) : Page :=
  b.frames.getD f.number (Page.empty ⟨⟨0⟩, 0⟩)

def setPage (b : Buffer) (f : FrameId) (p : Page) : Buffer :=
  { b with frames := b.frames.setIfInBounds f.number p }

def load (b : Buffer) (p : Page) : FrameId × Buffer :=
  (⟨b.frames.size⟩, { b with frames := b.frames.push p })

def hold (b : Buffer) (who : Holder) (f : FrameId) : Buffer :=
  { b with holders := b.holders.insert who f }

def letGo (b : Buffer) (who : Holder) : Buffer :=
  { b with holders := b.holders.erase who }

def isPinned (b : Buffer) (f : FrameId) : Bool :=
  b.holders.values.contains f

/-! ## The cache -/

def size (b : Buffer) : Nat :=
  b.cache.size

def cached? (b : Buffer) (id : PageId) : Option FrameId :=
  b.cache.get? id

def cachedPage? (b : Buffer) (id : PageId) : Option Page :=
  (b.cached? id).map b.page

def isCached (b : Buffer) (id : PageId) : Bool :=
  b.cache.contains id

def touch (b : Buffer) (id : PageId) : Buffer :=
  { b with recency := b.recency.touch id }

/-- Caches a frame under a page identifier, as the most recently used one. -/
def enter (b : Buffer) (id : PageId) (f : FrameId) : Buffer :=
  { b with cache := b.cache.insert id f }.touch id

def discard (b : Buffer) (id : PageId) : Buffer :=
  if b.isCached id then
    { b with cache := b.cache.erase id, recency := (b.recency.remove id).2 }
  else b

/-- The page may leave the cache without loss. -/
def isEvictable (b : Buffer) (id : PageId) : Bool :=
  match b.cached? id with
  | some f => !b.isPinned f && !(b.page f).isDirty
  | none => false

/-- The page that goes when room is needed. -/
def victim? (b : Buffer) : Option PageId :=
  b.recency.toList.find? b.isEvictable

/-- Caches a frame under an identifier that is not cached, making room first if need be. -/
def add (b : Buffer) (id : PageId) (f : FrameId) : Except Error Buffer :=
  if b.capacity ≤ b.size then
    match b.victim? with
    | some victim => .ok ((b.discard victim).enter id f)
    | none => .error (.exhausted b.capacity)
  else .ok (b.enter id f)

end Buffer

end PagedHeap
