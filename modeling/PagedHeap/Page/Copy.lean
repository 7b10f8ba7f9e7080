import PagedHeap.Page.Edit

/-!
# Pages in memory

The copy of a page in memory remembers which transaction dirtied it, and its baseline: the
content it had when it was last clean.  The baseline goes to the log beside the new content.
-/

namespace PagedHeap

structure Page where
  id : PageId
  image : Image
  dirtier : Option TxnId
  baseline : Image
  deriving DecidableEq

namespace Page

/-- A clean page, whose baseline is its content. -/
def clean (id : PageId) (image : Image) : Page :=
  ⟨id, image, none, image⟩

def empty (id : PageId) : Page :=
  clean id Image.blank

def isDirty (p : Page) : Bool :=
  p.dirtier.isSome

/-- Makes the content the baseline of later changes. -/
def rebase (p : Page) : Page :=
  { p with baseline := p.image }

/-- Makes a transaction the owner of the changes; a clean page takes its baseline first. -/
def markDirty (p : Page) (txn : TxnId) : Page :=
  let p := if p.isDirty then p else p.rebase
  { p with dirtier := some txn }

/-- Takes the owner of the changes away; the baseline stays. -/
def markClean (p : Page) : Page :=
  { p with dirtier := none }

def before (p : Page) : Page :=
  clean p.id p.baseline

def withImage (p : Page) (image : Image) : Page :=
  { p with image }

def row (p : Page) (slot : SlotId) : Checked (Except Error Row) :=
  p.image.row slot

def rowCount (p : Page) : Checked Nat :=
  p.image.rowCount

def rows (p : Page) : Checked (List (RecordId × Row)) := do
  return (← p.image.rows).map fun (slot, row) => (⟨p.id, slot⟩, row)

def hasRoom (p : Page) (size : Nat) : Checked Bool :=
  p.image.hasRoom size

def insert (row : Row) : Act Page RecordId := do
  let slot ← (Image.insert row).within image withImage
  return ⟨(← get).id, slot⟩

def ofRows (id : PageId) (rows : List Row) : Checked (Except Error Page) := do
  let (result, p) := (rows.forM fun row => do let _ ← insert row : Act Page Unit).on (empty id)
  return (← result).map fun _ => p

def delete (slot : SlotId) : Act Page Unit :=
  (Image.delete slot).within image withImage

/-- Replaces bytes of the content, whatever they mean. -/
def poke (p : Page) (start : Nat) (bytes : List UInt8) : Checked Page :=
  return p.withImage (← p.image.write start bytes)

/-- The page field by field, with its rows counted. -/
def detail (p : Page) : Checked String := do
  let owner := match p.dirtier with
    | none => "None"
    | some txn => s!"Some({txn.detail})"
  let count ← p.rowCount
  return s!"Page \x7b id: {p.id.detail}, dirtier: {owner}, rows: {count} \x7d"

end Page

end PagedHeap
