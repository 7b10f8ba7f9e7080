import PagedHeap.Checked
import PagedHeap.Ranked

/-!
# Identifiers

Tables, pages, slots, records and transactions are named by numbers of fixed width.  Pages are
ordered by table and then by number, records by page and then by slot; the ranks below say so.
Every identifier has a short text for messages (`text`) and one that spells its fields out
(`detail`).
-/

namespace PagedHeap

structure TableId where
  number : UInt32
  deriving DecidableEq, Repr

structure PageId where
  table : TableId
  pageNo : UInt32
  deriving DecidableEq, Repr

structure SlotId where
  number : UInt16
  deriving DecidableEq, Repr

structure RecordId where
  page : PageId
  slot : SlotId
  deriving DecidableEq, Repr

structure TxnId where
  number : UInt64
  deriving DecidableEq, Repr

namespace TableId

instance : Ranked TableId where
  rank t := t.number.toNat
  rank_injective {a b} h := by
    cases a
    cases b
    simpa using UInt32.toNat_inj.mp h

def text (t : TableId) : String :=
  s!"TableId({t.number.toNat})"

def detail (t : TableId) : String :=
  t.text

end TableId

namespace PageId

instance : Ranked PageId where
  rank p := p.table.number.toNat * UInt32.size + p.pageNo.toNat
  rank_injective {a b} h := by
    obtain ⟨⟨t⟩, n⟩ := a
    obtain ⟨⟨u⟩, m⟩ := b
    obtain ⟨htable, hpage⟩ := digits_inj n.toNat_lt_size m.toNat_lt_size h
    have ht : t = u := UInt32.toNat_inj.mp htable
    have hn : n = m := UInt32.toNat_inj.mp hpage
    rw [ht, hn]

def text (p : PageId) : String :=
  s!"PageId({p.table.number.toNat}:{p.pageNo.toNat})"

def detail (p : PageId) : String :=
  s!"PageId \x7b table_id: {p.table.detail}, page_no: {p.pageNo.toNat} \x7d"

/-- The byte at which the page starts in a file of pages of the given size. -/
def offset (p : PageId) (pageSize : Nat) : Checked Nat :=
  Checked.mul p.pageNo.toNat pageSize

end PageId

namespace SlotId

instance : Ranked SlotId where
  rank s := s.number.toNat
  rank_injective {a b} h := by
    cases a
    cases b
    simpa using UInt16.toNat_inj.mp h

def ofNat (n : Nat) : SlotId :=
  ⟨UInt16.ofNat n⟩

def toNat (s : SlotId) : Nat :=
  s.number.toNat

def detail (s : SlotId) : String :=
  s!"SlotId({s.toNat})"

end SlotId

namespace RecordId

instance : Ranked RecordId where
  rank r := rank r.page * UInt16.size + rank r.slot
  rank_injective {a b} h := by
    obtain ⟨p, s⟩ := a
    obtain ⟨q, t⟩ := b
    obtain ⟨hpage, hslot⟩ := digits_inj s.number.toNat_lt_size t.number.toNat_lt_size h
    have hp : p = q := rank_inj.mp hpage
    have hs : s = t := rank_inj.mp (show rank s = rank t from hslot)
    rw [hp, hs]

def text (r : RecordId) : String :=
  s!"{r.page.text}#{r.slot.toNat}"

def detail (r : RecordId) : String :=
  s!"RecordId \x7b page_id: {r.page.detail}, slot_id: {r.slot.detail} \x7d"

end RecordId

namespace TxnId

instance : Ranked TxnId where
  rank t := t.number.toNat
  rank_injective {a b} h := by
    cases a
    cases b
    simpa using UInt64.toNat_inj.mp h

def text (t : TxnId) : String :=
  s!"Txn({t.number.toNat})"

def detail (t : TxnId) : String :=
  s!"TransactionId({t.number.toNat})"

end TxnId

/-- Hands out transaction identifiers, each one above the one before. -/
structure TxnSource where
  next : UInt64 := 1

namespace TxnSource

def draw (s : TxnSource) : TxnId × TxnSource :=
  (⟨s.next⟩, ⟨s.next + 1⟩)

/-- The next `n` identifiers. -/
def drawMany : Nat → TxnSource → List TxnId × TxnSource
  | 0, s => ([], s)
  | n + 1, s =>
    let (t, s) := s.draw
    let (rest, s) := drawMany n s
    (t :: rest, s)

end TxnSource

end PagedHeap
