import PagedHeap.Page.Edit

/-!
# Row operations as data

What a transaction did to the rows is a list of operations, each with the record identifier that was
its answer or its argument.  A list is replayed on the image of one page, the operations on other
pages being left out; it must succeed there with the same answers.
-/

namespace PagedHeap

inductive RowOp where
  | put (rid : RecordId) (row : Row)
  | remove (rid : RecordId)
  deriving DecidableEq

namespace RowOp

def rid : RowOp → RecordId
  | put rid _ => rid
  | remove rid => rid

/-- The image after the operation, if it succeeds with the same answer. -/
def onImage? : RowOp → Image → Option Image
  | put rid row, img =>
    match (Image.insert row).on img with
    | (.ok (.ok slot), img') => if slot = rid.slot then some img' else none
    | _ => none
  | remove rid, img =>
    match (Image.delete rid.slot).on img with
    | (.ok (.ok ()), img') => some img'
    | _ => none

def replay? (page : PageId) (ops : List RowOp) (img : Image) : Option Image :=
  (ops.filter fun op => op.rid.page = page).foldlM (fun img op => op.onImage? img) img

variable {page : PageId} {op : RowOp} {ops : List RowOp} {img img' : Image}

@[simp] theorem replay?_nil (page : PageId) (img : Image) : replay? page [] img = some img := rfl

theorem replay?_append (page : PageId) (ops ops' : List RowOp) (img : Image) :
    replay? page (ops ++ ops') img = (replay? page ops img).bind (replay? page ops') := by
  simp only [replay?, List.filter_append, List.foldlM_append]
  rfl

theorem replay?_singleton (h : op.rid.page = page) :
    replay? page [op] img = op.onImage? img := by
  simp [replay?, h]

theorem replay?_of_forall_ne (h : ∀ op ∈ ops, op.rid.page ≠ page) :
    replay? page ops img = some img := by
  have hnone : ops.filter (fun op => op.rid.page = page) = [] := by
    simpa [List.filter_eq_nil_iff] using h
  rw [replay?, hnone]
  rfl

end RowOp

end PagedHeap
