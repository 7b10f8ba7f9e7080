import Mathlib.Data.List.Induction
import Mathlib.Order.Bounds.Defs
import PagedHeap.Proofs.Recency.Bounds

/-!
# The list over time

Whatever pages are touched and removed, the linked array shows the plain list on which the same is
done, and it may be walked from either end.  The nodes of removed pages are used again before the
array grows, so that it is never larger than the list was long at some time.
-/

namespace PagedHeap.Recency

inductive Use where
  | touch (page : PageId)
  | remove (page : PageId)

namespace Use

def on : Use → Recency → Recency
  | touch page, r => r.touch page
  | remove page, r => (r.remove page).2

/-- The same on a plain list with the most recently used page at its end. -/
def onList : Use → List PageId → List PageId
  | touch page, l => l.erase page ++ [page]
  | remove page, l => l.erase page

end Use

def after (uses : List Use) : Recency :=
  uses.foldl (fun r use => use.on r) ∅

def listAfter (uses : List Use) : List PageId :=
  uses.foldl (fun l use => use.onList l) []

/-- Everything that can be asked of the linked array is answered from the list `l`. -/
structure IsList (r : Recency) (l : List PageId) : Prop where
  nodup : l.Nodup
  /-- The walk from the least recently used page on ends, and it has met the list. -/
  walk : trail r.nodes Node.newer l.length r.oldest = some l
  /-- So does the walk from the other end, which meets the pages the other way round. -/
  walk_back : trail r.nodes Node.older l.length r.newest = some l.reverse
  toList_eq : r.toList = l
  newest?_eq : r.newest? = l.getLast?
  size_eq : r.size = l.length
  isEmpty_eq : r.isEmpty = l.isEmpty
  removed : ∀ page, (r.remove page).1 = decide (page ∈ l)

/-- No position outside the array is stored, and none is addressed by the next operation. -/
structure Confined (r : Recency) : Prop where
  inBounds : r.InBounds
  touch?_eq : ∀ page, r.touch? page = some (r.touch page)
  remove?_eq : ∀ page, r.remove? page = some (r.remove page)

/-- Each node belongs to one listed page or is spare once. -/
structure Allotted (r : Recency) : Prop where
  size_nodes : r.nodes.size = r.size + r.spare.length
  spare_nodup : r.spare.Nodup
  spare_free : ∀ i ∈ r.spare, ∀ page, r.index.get? page ≠ some i
  own_node : ∀ p q i, r.index.get? p = some i → r.index.get? q = some i → p = q

variable {r : Recency} {nodes : Array Node} {next : Option Nat} {c : Chain} {page : PageId}

/-! ## What is asked of the list -/

/-- The walk from the last node on meets the list the other way round. -/
theorem Segment.trail_older_eq (h : Segment nodes none c next) :
    trail nodes Node.older c.length (c.last none) = some c.pages.reverse := by
  induction c using List.reverseRecOn generalizing next with
  | nil => rfl
  | append_singleton c e ih =>
    obtain ⟨hfront, hnode, -⟩ := segment_append.mp h
    have hrest := ih hfront
    have hlast : Chain.last (c ++ [e]) none = some e.1 := by simp
    have hlength : (c ++ [e]).length = c.length + 1 := by simp
    rw [hlast, hlength, trail, hnode]
    simp only [Option.bind_eq_bind, Option.bind_some, hrest]
    simp [Chain.pages]

theorem Holds.newest?_eq (h : r.Holds c) : r.newest? = c.pages.getLast? := by
  rw [newest?, h.newest]
  rcases List.eq_nil_or_concat c with rfl | ⟨d, e, rfl⟩
  · rfl
  · have hsegment := h.segment
    rw [List.concat_eq_append] at hsegment ⊢
    obtain ⟨-, hnode, -⟩ := segment_append.mp hsegment
    have hlast : Chain.last (d ++ [e]) none = some e.1 := by simp
    rw [hlast]
    simp [hnode, Chain.pages]

theorem removed_eq (hr : r.Linked) (page : PageId) :
    (r.remove page).1 = decide (page ∈ r.toList) := by
  rw [Bool.eq_iff_iff, decide_eq_true_iff, mem_toList hr, remove, SortedMap.contains]
  cases r.index.get? page <;> simp

theorem Linked.isList (hr : r.Linked) : r.IsList r.toList := by
  obtain ⟨c, h⟩ := id hr
  have hlength : c.pages.length = c.length := List.length_map ..
  exact {
    nodup := nodup_toList hr
    walk := by
      rw [h.toList_eq, h.oldest, hlength]
      exact h.segment.trail_eq (Nat.le_refl _)
    walk_back := by
      rw [h.toList_eq, h.newest, hlength]
      exact h.segment.trail_older_eq
    toList_eq := rfl
    newest?_eq := by rw [h.newest?_eq, h.toList_eq]
    size_eq := size_eq hr
    isEmpty_eq := by
      rw [Bool.eq_iff_iff, List.isEmpty_iff_length_eq_zero, ← size_eq hr]
      exact List.isEmpty_iff_length_eq_zero
    removed := removed_eq hr }

/-! ## The nodes of the array -/

theorem nodes_allocate (r : Recency) (page : PageId) :
    (r.allocate page).2.nodes.size = if r.spare = [] then r.nodes.size + 1 else r.nodes.size := by
  rw [allocate]
  cases r.spare <;> simp

theorem spare_allocate (r : Recency) (page : PageId) :
    (r.allocate page).2.spare = r.spare.tail := by
  rw [allocate]
  cases r.spare <;> rfl

theorem nodes_touch (r : Recency) (page : PageId) :
    (r.touch page).nodes.size =
      if r.index.get? page = none ∧ r.spare = [] then r.nodes.size + 1 else r.nodes.size := by
  rw [touch]
  cases r.index.get? page with
  | some i =>
    simp only
    split <;> simp
  | none => simp [nodes_allocate]

theorem spare_touch (r : Recency) (page : PageId) :
    (r.touch page).spare = if r.index.get? page = none then r.spare.tail else r.spare := by
  rw [touch]
  cases r.index.get? page with
  | some i =>
    simp only
    split <;> simp
  | none => simp [spare_allocate]

theorem nodes_remove (r : Recency) (page : PageId) :
    (r.remove page).2.nodes.size = r.nodes.size := by
  rw [remove]
  cases r.index.get? page <;> simp

theorem spare_remove (r : Recency) (page : PageId) :
    (r.remove page).2.spare = (r.index.get? page).toList ++ r.spare := by
  rw [remove]
  cases r.index.get? page <;> simp

theorem mem_toList_iff (hr : r.Linked) (page : PageId) :
    page ∈ r.toList ↔ r.index.get? page ≠ none := by
  rw [mem_toList hr, SortedMap.contains, Option.isSome_iff_ne_none]

/-- Every node of the array is either linked or spare. -/
def Full (r : Recency) : Prop :=
  r.nodes.size = r.toList.length + r.spare.length

theorem Full.touch (hfull : r.Full) (hr : r.Linked) (page : PageId) : (r.touch page).Full := by
  have hmem := mem_toList_iff hr page
  rw [Full] at hfull ⊢
  rw [nodes_touch, spare_touch, toList_touch hr, List.length_append, List.length_singleton]
  cases hpage : r.index.get? page with
  | some i =>
    have hin : page ∈ r.toList := hmem.mpr (by simp [hpage])
    have hpos := List.length_pos_of_mem hin
    rw [List.length_erase_of_mem hin, if_neg (by simp), if_neg (by simp)]
    omega
  | none =>
    have hnot : page ∉ r.toList := fun hin => hmem.mp hin hpage
    rw [List.erase_of_not_mem hnot, if_pos rfl, List.length_tail]
    cases hspare : r.spare with
    | nil =>
      rw [hspare] at hfull
      simp [hfull]
    | cons i rest =>
      rw [hspare] at hfull
      simp only [List.length_cons] at hfull
      simp
      omega

theorem Full.remove (hfull : r.Full) (hr : r.Linked) (page : PageId) :
    (r.remove page).2.Full := by
  have hmem := mem_toList_iff hr page
  rw [Full] at hfull ⊢
  rw [nodes_remove, spare_remove, toList_remove hr, List.length_append]
  cases hpage : r.index.get? page with
  | some i =>
    have hin : page ∈ r.toList := hmem.mpr (by simp [hpage])
    have hpos := List.length_pos_of_mem hin
    rw [List.length_erase_of_mem hin, Option.toList_some, List.length_singleton]
    omega
  | none =>
    have hnot : page ∉ r.toList := fun hin => hmem.mp hin hpage
    rw [List.erase_of_not_mem hnot, hfull, Option.toList_none, List.length_nil, Nat.zero_add]

theorem Linked.allotted (hr : r.Linked) (hfull : r.Full) : r.Allotted := by
  obtain ⟨c, h⟩ := id hr
  exact {
    size_nodes := by rw [size_eq hr, hfull]
    spare_nodup := h.spare
    spare_free := fun i hi page hpage => (h.spare_lt i hi).2
      (List.mem_map.mpr ⟨_, (h.index page i).mp hpage, rfl⟩)
    own_node := fun p q i hp hq => congrArg Prod.snd
      (List.inj_on_of_nodup_map h.indices ((h.index p i).mp hp) ((h.index q i).mp hq) rfl) }

/-- The array grows only when no node is spare. -/
theorem nodes_on (use : Use) (r : Recency) :
    (use.on r).nodes.size = r.nodes.size ∨
      (use.on r).nodes.size = r.nodes.size + 1 ∧ (use.on r).spare = [] := by
  cases use with
  | remove page => exact Or.inl (nodes_remove r page)
  | touch page =>
    rw [Use.on, nodes_touch, spare_touch]
    split
    case isTrue h => exact Or.inr ⟨rfl, by simp [h.1, h.2]⟩
    case isFalse => exact Or.inl rfl

/-! ## Whole histories -/

theorem after_append_singleton (uses : List Use) (use : Use) :
    after (uses ++ [use]) = use.on (after uses) :=
  List.foldl_append

theorem listAfter_append_singleton (uses : List Use) (use : Use) :
    listAfter (uses ++ [use]) = use.onList (listAfter uses) :=
  List.foldl_append

theorem linked_after (uses : List Use) : (after uses).Linked := by
  induction uses using List.reverseRecOn with
  | nil => exact linked_empty
  | append_singleton uses use ih =>
    rw [after_append_singleton]
    cases use with
    | touch page => exact ih.touch page
    | remove page => exact ih.remove page

theorem toList_after (uses : List Use) : (after uses).toList = listAfter uses := by
  induction uses using List.reverseRecOn with
  | nil => rfl
  | append_singleton uses use ih =>
    rw [after_append_singleton, listAfter_append_singleton, ← ih]
    cases use with
    | touch page => exact toList_touch (linked_after uses) page
    | remove page => exact toList_remove (linked_after uses) page

theorem inBounds_after (uses : List Use) : (after uses).InBounds := by
  induction uses using List.reverseRecOn with
  | nil => exact InBounds.empty
  | append_singleton uses use ih =>
    rw [after_append_singleton]
    cases use with
    | touch page => exact (ih.touch page).2
    | remove page => exact (ih.remove page).2

theorem full_after (uses : List Use) : (after uses).Full := by
  induction uses using List.reverseRecOn with
  | nil => rfl
  | append_singleton uses use ih =>
    rw [after_append_singleton]
    cases use with
    | touch page => exact ih.touch (linked_after uses) page
    | remove page => exact ih.remove (linked_after uses) page

theorem size_le_nodes_after (uses : List Use) : (after uses).size ≤ (after uses).nodes.size := by
  rw [size_eq (linked_after uses), full_after uses]
  exact Nat.le_add_right _ _

/-- The array is as large as the list was at its longest. -/
theorem nodes_after_isGreatest (uses : List Use) :
    IsGreatest {n | ∃ past, past <+: uses ∧ (after past).size = n} (after uses).nodes.size := by
  induction uses using List.reverseRecOn with
  | nil =>
    refine ⟨⟨[], List.prefix_rfl, rfl⟩, ?_⟩
    rintro n ⟨past, hpast, rfl⟩
    obtain rfl := List.prefix_nil.mp hpast
    exact Nat.le_refl _
  | append_singleton uses use ih =>
    obtain ⟨⟨past, hpast, hreached⟩, hbound⟩ := ih
    have hnodes := nodes_on use (after uses)
    rw [← after_append_singleton] at hnodes
    constructor
    · rcases hnodes with hsame | ⟨-, hspare⟩
      · exact ⟨past, hpast.trans (List.prefix_append _ _), hreached.trans hsame.symm⟩
      · -- nothing is spare, so every node is linked: the list has never been longer
        refine ⟨_, List.prefix_rfl, ?_⟩
        rw [size_eq (linked_after _), full_after, hspare]
        rfl
    · rintro n ⟨past', hpast', rfl⟩
      rcases List.prefix_concat_iff.mp hpast' with rfl | hpast'
      · exact size_le_nodes_after _
      · have hle := hbound ⟨past', hpast', rfl⟩
        omega

theorem confined_after (uses : List Use) : (after uses).Confined where
  inBounds := inBounds_after uses
  touch?_eq page := ((inBounds_after uses).touch page).1
  remove?_eq page := ((inBounds_after uses).remove page).1

/-- Whatever was touched and removed, the linked array is the list that the same makes of the empty
one; all accesses lie in the array, no node is used twice, and there are as many nodes as
pages were listed at most. -/
theorem isList_after (uses : List Use) :
    (after uses).IsList (listAfter uses) ∧ (after uses).Confined ∧ (after uses).Allotted ∧
      IsGreatest {n | ∃ past, past <+: uses ∧ (after past).size = n} (after uses).nodes.size := by
  have hlinked := linked_after uses
  refine ⟨?_, confined_after uses, hlinked.allotted (full_after uses), nodes_after_isGreatest uses⟩
  rw [← toList_after]
  exact hlinked.isList

/-- The second page takes the node of the first one. -/
example :
    (after [.touch ⟨⟨1⟩, 0⟩, .remove ⟨⟨1⟩, 0⟩, .touch ⟨⟨1⟩, 1⟩]).nodes = #[⟨⟨⟨1⟩, 1⟩, none, none⟩] := by
  decide

end PagedHeap.Recency
