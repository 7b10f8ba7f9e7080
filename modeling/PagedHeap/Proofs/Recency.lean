import Mathlib.Data.List.Nodup
import Mathlib.Data.List.Perm.Subperm
import PagedHeap.Recency

/-!
# What the links show

The linked nodes are a stretch of the array for themselves: every node of the list points to its
neighbours there, so the walk along the links meets the nodes of the list in their order.  Touching
a page moves it to the end of the list, removing it takes it out, and the order of the others stays.
-/

namespace PagedHeap

namespace SortedMap

variable {κ ν : Type} [Ranked κ]

/-- A list that names every key once is as long as the map is large. -/
theorem size_eq_length {m : SortedMap κ ν} {l : List κ} (hl : l.Nodup)
    (hmem : ∀ k, k ∈ l ↔ m.contains k = true) : m.size = l.length := by
  have hperm : m.keys.Perm l :=
    (List.perm_ext_iff_of_nodup m.keys_nodup hl).mpr fun k => mem_keys.trans (hmem k).symm
  rw [← hperm.length_eq, keys, List.length_map]
  rfl

end SortedMap

namespace Recency

variable {nodes : Array Node} {r : Recency} {prev next link : Option Nat} {i j : Nat}
  {page q : PageId}

/-- The nodes of a list with their pages, from the least recently used one on. -/
abbrev Chain := List (Nat × PageId)

namespace Chain

/-- The first node, or what comes behind the list if there is none. -/
def first (c : Chain) (next : Option Nat) : Option Nat :=
  (c.head?.map Prod.fst).or next

def last (c : Chain) (prev : Option Nat) : Option Nat :=
  (c.getLast?.map Prod.fst).or prev

def indices (c : Chain) : List Nat :=
  c.map Prod.fst

def pages (c : Chain) : List PageId :=
  c.map Prod.snd

@[simp] theorem first_nil (next : Option Nat) : first [] next = next := rfl

@[simp] theorem first_cons (e : Nat × PageId) (c : Chain) (next : Option Nat) :
    first (e :: c) next = some e.1 := rfl

@[simp] theorem last_nil (prev : Option Nat) : last [] prev = prev := rfl

@[simp] theorem last_cons (e : Nat × PageId) (c : Chain) (prev : Option Nat) :
    last (e :: c) prev = last c (some e.1) := by
  cases c with
  | nil => rfl
  | cons e' c => simp [last, List.getLast?_cons]

@[simp] theorem last_append (c c' : Chain) (prev : Option Nat) :
    last (c ++ c') prev = last c' (last c prev) := by
  induction c generalizing prev with
  | nil => rfl
  | cons e c ih => rw [List.cons_append, last_cons, ih, last_cons]

theorem first_append (c c' : Chain) (next : Option Nat) :
    first (c ++ c') next = first c (first c' next) := by
  cases c <;> rfl

end Chain

open Chain

variable {c c' : Chain}

/-! ## Stretches of linked nodes -/

/-- Each node points to its neighbours, the outer ones to `prev` and `next`. -/
def Segment (nodes : Array Node) (prev : Option Nat) : Chain → Option Nat → Prop
  | [], _ => True
  | e :: c, next =>
    nodes[e.1]? = some ⟨e.2, first c next, prev⟩ ∧ Segment nodes (some e.1) c next

theorem segment_append :
    Segment nodes prev (c ++ c') next ↔
      Segment nodes prev c (first c' next) ∧ Segment nodes (last c prev) c' next := by
  induction c generalizing prev with
  | nil => simp [Segment]
  | cons e c ih => rw [List.cons_append, Segment, ih, Segment, first_append, last_cons, and_assoc]

/-- Only the nodes of the list matter. -/
theorem Segment.frame (h : Segment nodes prev c next) {nodes' : Array Node}
    (hsame : ∀ i ∈ c.indices, nodes'[i]? = nodes[i]?) : Segment nodes' prev c next := by
  induction c generalizing prev with
  | nil => trivial
  | cons e c ih =>
    refine ⟨(hsame e.1 List.mem_cons_self).trans h.1, ih h.2 fun i hi => ?_⟩
    exact hsame i (List.mem_cons_of_mem _ hi)

theorem Segment.modify (h : Segment nodes prev c next) (f : Node → Node) (hi : i ∉ c.indices) :
    Segment (nodes.modify i f) prev c next := by
  refine h.frame fun j hj => ?_
  have hne : i ≠ j := fun heq => hi (heq ▸ hj)
  rw [Array.getElem?_modify, if_neg hne]

theorem Segment.lt_size (h : Segment nodes prev c next) (hi : i ∈ c.indices) : i < nodes.size := by
  induction c generalizing prev with
  | nil => cases hi
  | cons e c ih =>
    rcases List.mem_cons.mp hi with rfl | hi
    · exact (Array.getElem?_eq_some_iff.mp h.1).1
    · exact ih h.2 hi

/-- The first node may be given another neighbour in front. -/
theorem Segment.setOlder (h : Segment nodes prev ((i, page) :: c) next) (hi : i ∉ c.indices)
    (link : Option Nat) :
    Segment (nodes.modify i fun n => { n with older := link }) link ((i, page) :: c) next := by
  refine ⟨?_, h.2.modify _ hi⟩
  rw [Array.getElem?_modify, if_pos rfl, h.1]
  rfl

/-- And the last one another neighbour behind. -/
theorem Segment.setNewer (h : Segment nodes prev (c ++ [(i, page)]) next) (hi : i ∉ c.indices)
    (link : Option Nat) :
    Segment (nodes.modify i fun n => { n with newer := link }) prev (c ++ [(i, page)]) link := by
  rw [segment_append] at h ⊢
  refine ⟨h.1.modify _ hi, ?_, trivial⟩
  rw [Array.getElem?_modify, if_pos rfl, h.2.1]
  rfl

theorem Segment.detach (h : Segment r.nodes prev c next) (hi : i ∉ c.indices)
    (newer older : Option Nat) :
    Segment ((r.setNewer i newer).setOlder i older).nodes prev c next :=
  (h.modify (fun n => { n with newer }) hi).modify (fun n => { n with older }) hi

/-- The walk from the first node on meets the list. -/
theorem Segment.trail_eq (h : Segment nodes prev c none) {steps : Nat} (hsteps : c.length ≤ steps) :
    trail nodes Node.newer steps (first c none) = some c.pages := by
  induction c generalizing prev steps with
  | nil =>
    rw [first_nil, trail]
    rfl
  | cons e c ih =>
    cases steps with
    | zero => simp at hsteps
    | succ steps =>
      have hrest := ih h.2 (Nat.le_of_succ_le_succ hsteps)
      rw [first_cons, trail, h.1]
      simp only [Option.bind_eq_bind, Option.bind_some, hrest]
      rfl

/-! ## The list of a recency -/

/-- The nodes of `c`, and no others, are linked up in its order. -/
structure Strung (r : Recency) (c : Chain) : Prop where
  segment : Segment r.nodes none c none
  oldest : r.oldest = c.first none
  newest : r.newest = c.last none
  indices : c.indices.Nodup

/-- The index knows the linked nodes, and the spare nodes are none of them. -/
structure Holds (r : Recency) (c : Chain) : Prop extends Strung r c where
  index : ∀ page i, r.index.get? page = some i ↔ (i, page) ∈ c
  spare : r.spare.Nodup
  spare_lt : ∀ i ∈ r.spare, i < r.nodes.size ∧ i ∉ c.indices

theorem holds_empty : Holds ∅ [] where
  segment := trivial
  oldest := rfl
  newest := rfl
  indices := List.nodup_nil
  index _ _ := ⟨nofun, nofun⟩
  spare := List.nodup_nil
  spare_lt _ hi := nomatch hi

namespace Holds

theorem pages_nodup (h : r.Holds c) : c.pages.Nodup := by
  refine List.Nodup.map_on (fun e he e' he' heq => ?_) h.indices.of_map
  have hi := (h.index e.2 e.1).mpr he
  rw [heq, (h.index e'.2 e'.1).mpr he'] at hi
  exact Prod.ext (Option.some.inj hi).symm heq

theorem length_le (h : r.Holds c) : c.length ≤ r.nodes.size := by
  have hsub : c.indices.Subperm (List.range r.nodes.size) :=
    List.subperm_of_subset h.indices fun i hi => List.mem_range.mpr (h.segment.lt_size hi)
  have hle := hsub.length_le
  rwa [List.length_range, Chain.indices, List.length_map] at hle

theorem toList_eq (h : r.Holds c) : r.toList = c.pages := by
  rw [toList, h.oldest, h.segment.trail_eq h.length_le]
  rfl

theorem not_mem_pages (h : r.Holds c) (hpage : r.index.get? page = none) : page ∉ c.pages := by
  intro hmem
  obtain ⟨⟨i, page'⟩, hi, rfl⟩ := List.mem_map.mp hmem
  rw [(h.index _ i).mpr hi] at hpage
  cases hpage

end Holds

/-! ## Taking a node out -/

/-- Nothing but the nodes of the list has changed, and what is said of its ends. -/
structure Beyond (c : Chain) (r r' : Recency) : Prop where
  nodes : ∀ i, i ∉ c.indices → r'.nodes[i]? = r.nodes[i]?
  size : r'.nodes.size = r.nodes.size
  index : r'.index = r.index
  spare : r'.spare = r.spare

theorem beyond_modify (c : Chain) (r : Recency) (f : Node → Node) (hi : i ∈ c.indices) :
    Beyond c r { r with nodes := r.nodes.modify i f } := by
  refine ⟨fun j hj => ?_, Array.size_modify, rfl, rfl⟩
  have hne : i ≠ j := fun heq => hj (heq ▸ hi)
  exact (Array.getElem?_modify ..).trans (if_neg hne)

/-- The part of taking a node out that its newer neighbour sees. -/
def joinNewer (r : Recency) (node : Node) : Recency :=
  match node.newer with
  | some j => r.setOlder j node.older
  | none => { r with newest := node.older }

def joinOlder (r : Recency) (node : Node) : Recency :=
  match node.older with
  | some j => r.setNewer j node.newer
  | none => { r with oldest := node.newer }

theorem unlink_eq {node : Node} (hnode : r.nodes[i]? = some node) :
    r.unlink i = (((r.joinNewer node).joinOlder node).setNewer i none).setOlder i none := by
  rw [unlink, hnode]
  rfl

theorem joinNewer_segment (h : Segment r.nodes (some i) c none) (hnodup : c.indices.Nodup)
    (hnewest : r.newest = c.last (some i)) (page : PageId) (link : Option Nat) :
    Segment (r.joinNewer ⟨page, c.first none, link⟩).nodes link c none ∧
      (r.joinNewer ⟨page, c.first none, link⟩).newest = c.last link ∧
      (r.joinNewer ⟨page, c.first none, link⟩).oldest = r.oldest ∧
      Beyond c r (r.joinNewer ⟨page, c.first none, link⟩) := by
  cases c with
  | nil => exact ⟨trivial, rfl, rfl, fun _ _ => rfl, rfl, rfl, rfl⟩
  | cons e c =>
    refine ⟨h.setOlder (List.nodup_cons.mp hnodup).1 link, ?_, rfl,
      beyond_modify _ r _ List.mem_cons_self⟩
    exact hnewest.trans (by rw [last_cons, last_cons])

theorem joinOlder_segment (h : Segment r.nodes none c (some i)) (hnodup : c.indices.Nodup)
    (holdest : r.oldest = c.first (some i)) (page : PageId) (link : Option Nat) :
    Segment (r.joinOlder ⟨page, link, c.last none⟩).nodes none c link ∧
      (r.joinOlder ⟨page, link, c.last none⟩).oldest = c.first link ∧
      (r.joinOlder ⟨page, link, c.last none⟩).newest = r.newest ∧
      Beyond c r (r.joinOlder ⟨page, link, c.last none⟩) := by
  rcases List.eq_nil_or_concat c with rfl | ⟨d, ⟨j, q⟩, rfl⟩
  · exact ⟨trivial, rfl, rfl, fun _ _ => rfl, rfl, rfl, rfl⟩
  · rw [List.concat_eq_append] at *
    have hj : j ∉ Chain.indices d := by
      rw [Chain.indices, List.map_append] at hnodup
      exact fun hmem => (List.nodup_append.mp hnodup).2.2 j hmem j (by simp) rfl
    have hlast : Chain.last (d ++ [(j, q)]) none = some j := by simp
    rw [hlast]
    refine ⟨h.setNewer hj link, holdest.trans ?_, rfl, beyond_modify _ r _ (by simp [indices])⟩
    cases d <;> rfl

/-- A node is taken out, and the others keep their order. -/
theorem Strung.unlink (h : r.Strung (c ++ (i, page) :: c')) :
    (r.unlink i).Strung (c ++ c') ∧ (r.unlink i).nodes[i]? = some ⟨page, none, none⟩ ∧
      (r.unlink i).nodes.size = r.nodes.size ∧ (r.unlink i).index = r.index ∧
      (r.unlink i).spare = r.spare := by
  have hindices := h.indices
  simp only [Chain.indices, List.map_append, List.map_cons] at hindices
  obtain ⟨hc, hic', hdisjoint⟩ := List.nodup_append.mp hindices
  obtain ⟨hi', hc'⟩ := List.nodup_cons.mp hic'
  have hi : i ∉ c.indices := fun hmem => hdisjoint i hmem i List.mem_cons_self rfl
  obtain ⟨hfront, hnode, hback⟩ := segment_append.mp h.segment
  rw [unlink_eq hnode]
  -- First the nodes behind are joined to those in front, and then the other way round.
  obtain ⟨hback₁, hnewest₁, holdest₁, hbeyond₁⟩ :=
    joinNewer_segment hback hc' (h.newest.trans (by simp)) page (c.last none)
  generalize r.joinNewer ⟨page, c'.first none, c.last none⟩ = r₁ at *
  have hfront₁ : Segment r₁.nodes none c (some i) :=
    hfront.frame fun j hj => hbeyond₁.nodes j fun hj' =>
      hdisjoint j hj j (List.mem_cons_of_mem _ hj') rfl
  obtain ⟨hfront₂, holdest₂, hnewest₂, hbeyond₂⟩ :=
    joinOlder_segment hfront₁ hc (holdest₁.trans (h.oldest.trans (first_append ..))) page
      (c'.first none)
  generalize r₁.joinOlder ⟨page, c'.first none, c.last none⟩ = r₂ at *
  have hback₂ : Segment r₂.nodes (c.last none) c' none :=
    hback₁.frame fun j hj => hbeyond₂.nodes j fun hj' =>
      hdisjoint j hj' j (List.mem_cons_of_mem _ hj) rfl
  have hnode₂ : r₂.nodes[i]? = some ⟨page, c'.first none, c.last none⟩ := by
    rw [hbeyond₂.nodes i hi, hbeyond₁.nodes i hi']
    exact hnode
  have hall : i ∉ (c ++ c').indices := by
    rw [Chain.indices, List.map_append, List.mem_append]
    exact fun hmem => hmem.elim hi hi'
  refine ⟨⟨(segment_append.mpr ⟨hfront₂, hback₂⟩).detach hall none none,
    holdest₂.trans (first_append ..).symm, hnewest₂.trans (hnewest₁.trans (last_append ..).symm),
    ?_⟩, ?_, ?_, ?_, ?_⟩
  · rw [Chain.indices, List.map_append]
    exact List.nodup_append.mpr ⟨hc, hc', fun j hj k hk =>
      hdisjoint j hj k (List.mem_cons_of_mem _ hk)⟩
  · simp [setNewer, setOlder, Array.getElem?_modify, hnode₂]
  · simp [setNewer, setOlder, hbeyond₂.size, hbeyond₁.size]
  · exact hbeyond₂.index.trans hbeyond₁.index
  · exact hbeyond₂.spare.trans hbeyond₁.spare

/-! ## Linking a node in -/

/-- A node that is not linked becomes the newest one. -/
theorem Strung.linkNewest {newer older : Option Nat} (h : r.Strung c) (hi : i ∉ c.indices)
    (hnode : r.nodes[i]? = some ⟨page, newer, older⟩) :
    (r.linkNewest i).Strung (c ++ [(i, page)]) ∧ (r.linkNewest i).nodes.size = r.nodes.size ∧
      (r.linkNewest i).index = r.index ∧ (r.linkNewest i).spare = r.spare := by
  have hnodup : (c ++ [(i, page)]).indices.Nodup := by
    rw [Chain.indices, List.map_append]
    refine List.nodup_append.mpr ⟨h.indices, by simp, fun a ha b hb heq => ?_⟩
    simp only [List.map_cons, List.map_nil, List.mem_singleton] at hb
    exact hi (hb ▸ heq ▸ ha)
  have h₁ : Segment ((r.setNewer i none).setOlder i r.newest).nodes none c none :=
    h.segment.detach hi none r.newest
  have hnode₁ : ((r.setNewer i none).setOlder i r.newest).nodes[i]? =
      some ⟨page, none, c.last none⟩ := by
    simp [setNewer, setOlder, Array.getElem?_modify, hnode, h.newest]
  have hsize₁ : ((r.setNewer i none).setOlder i r.newest).nodes.size = r.nodes.size := by
    simp [setNewer, setOlder]
  rcases List.eq_nil_or_concat c with rfl | ⟨d, ⟨j, q⟩, rfl⟩
  · have hnone : ((r.setNewer i none).setOlder i r.newest).newest = none := h.newest
    simp only [Recency.linkNewest, hnone]
    exact ⟨⟨⟨hnode₁, trivial⟩, rfl, rfl, hnodup⟩, hsize₁, rfl, rfl⟩
  · rw [List.concat_eq_append] at *
    have hj : j ∉ Chain.indices d := by
      have hindices := h.indices
      rw [Chain.indices, List.map_append] at hindices
      exact fun hmem => (List.nodup_append.mp hindices).2.2 j hmem j (by simp) rfl
    have hlast : Chain.last (d ++ [(j, q)]) none = some j := by simp
    have hsome : ((r.setNewer i none).setOlder i r.newest).newest = some j :=
      h.newest.trans hlast
    have hne : j ≠ i := by
      rintro rfl
      exact hi (by simp [Chain.indices])
    simp only [Recency.linkNewest, hsome]
    refine ⟨⟨segment_append.mpr ⟨h₁.setNewer hj (some i), ?_, trivial⟩, ?_, ?_, hnodup⟩, ?_, rfl, rfl⟩
    · exact (Array.getElem?_modify ..).trans ((if_neg hne).trans hnode₁)
    · exact h.oldest.trans (by cases d <;> rfl)
    · simp
    · exact Array.size_modify.trans hsize₁

/-! ## Touching and removing -/

/-- The pages are linked up in some order. -/
def Linked (r : Recency) : Prop :=
  ∃ c, r.Holds c

theorem linked_empty : Linked ∅ := ⟨[], holds_empty⟩

theorem mem_toList (hr : r.Linked) : page ∈ r.toList ↔ r.index.contains page = true := by
  obtain ⟨c, h⟩ := hr
  rw [h.toList_eq, Chain.pages, List.mem_map, SortedMap.contains, Option.isSome_iff_exists]
  constructor
  · rintro ⟨⟨i, q⟩, hmem, rfl⟩
    exact ⟨i, (h.index q i).mpr hmem⟩
  · rintro ⟨i, hi⟩
    exact ⟨(i, page), (h.index page i).mp hi, rfl⟩

theorem nodup_toList (hr : r.Linked) : r.toList.Nodup := by
  obtain ⟨c, h⟩ := hr
  rw [h.toList_eq]
  exact h.pages_nodup

theorem size_eq (hr : r.Linked) : r.size = r.toList.length :=
  SortedMap.size_eq_length (nodup_toList hr) fun _ => mem_toList hr

theorem Holds.erase_pages (h : r.Holds (c ++ (i, page) :: c')) :
    (c ++ (i, page) :: c').pages.erase page = (c ++ c').pages := by
  have hnodup := h.pages_nodup
  simp only [Chain.pages, List.map_append, List.map_cons] at hnodup ⊢
  rw [List.erase_append_right _ fun hmem =>
    (List.nodup_append.mp hnodup).2.2 page hmem page List.mem_cons_self rfl, List.erase_cons_head]

/-- The newest node stands at the end. -/
theorem Holds.eq_nil_of_newest (h : r.Holds (c ++ (i, page) :: c')) (hnewest : r.newest = some i) :
    c' = [] := by
  rcases List.eq_nil_or_concat c' with rfl | ⟨d, ⟨j, q⟩, rfl⟩
  · rfl
  · rw [List.concat_eq_append] at h
    have hlast : (c ++ (i, page) :: (d ++ [(j, q)])).last none = some j := by simp
    rw [h.newest, hlast] at hnewest
    have hindices := h.indices
    simp only [Chain.indices, List.map_append, List.map_cons] at hindices
    have hi := (List.nodup_cons.mp (List.nodup_append.mp hindices).2.1).1
    exact absurd (by simp [Option.some.inj hnewest]) hi

theorem Holds.touch_known (h : r.Holds (c ++ (i, page) :: c')) :
    ∃ d, (r.touch page).Holds d ∧ d.pages = (c ++ c').pages ++ [page] := by
  have hmem : (i, page) ∈ c ++ (i, page) :: c' := by simp
  rw [touch, (h.index page i).mpr hmem]
  simp only
  split
  case isTrue hnewest =>
    obtain rfl := h.eq_nil_of_newest hnewest
    exact ⟨_, h, by simp [Chain.pages]⟩
  case isFalse =>
    obtain ⟨hstrung, hnode, hsize, hindex, hspare⟩ := h.toStrung.unlink
    have hperm : ((c ++ c') ++ [(i, page)]).Perm (c ++ (i, page) :: c') := by
      have hcomm : (c' ++ [(i, page)]).Perm ([(i, page)] ++ c') := List.perm_append_comm
      rw [List.append_assoc]
      exact hcomm.append_left c
    have hi : i ∉ (c ++ c').indices := by
      have hnodup := (hperm.map Prod.fst).nodup_iff.mpr h.indices
      rw [List.map_append] at hnodup
      exact fun hi => (List.nodup_append.mp hnodup).2.2 i hi i (by simp) rfl
    obtain ⟨hstrung', hsize', hindex', hspare'⟩ := hstrung.linkNewest hi hnode
    refine ⟨(c ++ c') ++ [(i, page)], ⟨hstrung', fun q j => ?_, ?_, fun j hj => ?_⟩,
      by simp [Chain.pages]⟩
    · rw [hindex', hindex, h.index, hperm.mem_iff]
    · rw [hspare', hspare]
      exact h.spare
    · rw [hspare', hspare] at hj
      rw [hsize', hsize]
      obtain ⟨hlt, hfree⟩ := h.spare_lt j hj
      exact ⟨hlt, fun hmem => hfree ((hperm.map Prod.fst).mem_iff.mp hmem)⟩

/-- A new node stands at a place that no linked one has. -/
theorem Holds.allocate (h : r.Holds c) (page : PageId) :
    (r.allocate page).2.Strung c ∧
      (r.allocate page).2.nodes[(r.allocate page).1]? = some ⟨page, none, none⟩ ∧
      (r.allocate page).1 ∉ c.indices ∧ (r.allocate page).2.index = r.index ∧
      (r.allocate page).2.spare.Nodup ∧
      ∀ i ∈ (r.allocate page).2.spare, i < (r.allocate page).2.nodes.size ∧
        i ∉ c.indices ∧ i ≠ (r.allocate page).1 := by
  rw [Recency.allocate]
  cases hspare : r.spare with
  | cons i rest =>
    have hnodup := h.spare
    rw [hspare] at hnodup
    obtain ⟨hfresh, hrest⟩ := List.nodup_cons.mp hnodup
    obtain ⟨hlt, hi⟩ := h.spare_lt i (by simp [hspare])
    refine ⟨⟨h.segment.frame fun j hj => ?_, h.oldest, h.newest, h.indices⟩, ?_, hi, rfl, hrest,
      fun j hj => ?_⟩
    · have hne : i ≠ j := fun heq => hi (heq ▸ hj)
      exact Array.getElem?_setIfInBounds_ne hne
    · exact Array.getElem?_setIfInBounds_self_of_lt hlt
    · obtain ⟨hlt', hj'⟩ := h.spare_lt j (by simp [hspare, show j ∈ rest from hj])
      have hne : j ≠ i := by
        rintro rfl
        exact hfresh hj
      exact ⟨by simpa using hlt', hj', hne⟩
  | nil =>
    have hi : r.nodes.size ∉ c.indices := fun hmem =>
      Nat.lt_irrefl _ (h.segment.lt_size hmem)
    refine ⟨⟨h.segment.frame fun j hj => ?_, h.oldest, h.newest, h.indices⟩, by simp, hi, rfl,
      List.nodup_nil, nofun⟩
    have hlt := h.segment.lt_size hj
    exact (Array.getElem?_push_lt hlt).trans (Array.getElem?_eq_getElem hlt).symm

theorem Holds.touch_new (h : r.Holds c) (hpage : r.index.get? page = none) :
    ∃ d, (r.touch page).Holds d ∧ d.pages = c.pages ++ [page] := by
  obtain ⟨hstrung, hnode, hi, hindex, hspare, hfree⟩ := h.allocate page
  rw [Recency.touch, hpage]
  simp only
  generalize (r.allocate page).1 = i at *
  generalize (r.allocate page).2 = r₁ at *
  have hstrung₁ : Strung { r₁ with index := r₁.index.insert page i } c :=
    ⟨hstrung.segment, hstrung.oldest, hstrung.newest, hstrung.indices⟩
  obtain ⟨hstrung', hsize', hindex', hspare'⟩ := hstrung₁.linkNewest hi hnode
  refine ⟨c ++ [(i, page)], ⟨hstrung', fun q j => ?_, ?_, fun j hj => ?_⟩, by simp [Chain.pages]⟩
  · rw [hindex', SortedMap.get?_insert, hindex]
    split
    case isTrue heq =>
      subst heq
      have hnot : (j, page) ∉ c := fun hmem =>
        h.not_mem_pages hpage (List.mem_map.mpr ⟨_, hmem, rfl⟩)
      simp [hnot, eq_comm]
    case isFalse hne =>
      rw [h.index]
      simp [Ne.symm hne]
  · rw [hspare']
    exact hspare
  · rw [hspare'] at hj
    obtain ⟨hlt, hj', hne⟩ := hfree j hj
    refine ⟨hsize' ▸ hlt, ?_⟩
    rw [Chain.indices, List.map_append, List.mem_append, not_or]
    exact ⟨hj', by simpa using hne⟩

/-- Whatever the page, it stands at the end afterwards, and the others keep their order. -/
theorem Holds.touch (h : r.Holds c) (page : PageId) :
    ∃ d, (r.touch page).Holds d ∧ d.pages = c.pages.erase page ++ [page] := by
  cases hpage : r.index.get? page with
  | none =>
    rw [List.erase_of_not_mem (h.not_mem_pages hpage)]
    exact h.touch_new hpage
  | some i =>
    obtain ⟨a, b, rfl⟩ := List.append_of_mem ((h.index page i).mp hpage)
    rw [h.erase_pages]
    exact h.touch_known

theorem Holds.remove (h : r.Holds c) (page : PageId) :
    ∃ d, (r.remove page).2.Holds d ∧ d.pages = c.pages.erase page := by
  rw [Recency.remove]
  cases hpage : r.index.get? page with
  | none => exact ⟨c, h, (List.erase_of_not_mem (h.not_mem_pages hpage)).symm⟩
  | some i =>
    obtain ⟨a, b, rfl⟩ := List.append_of_mem ((h.index page i).mp hpage)
    have hstrung₁ : Strung { r with index := r.index.erase page } (a ++ (i, page) :: b) :=
      ⟨h.segment, h.oldest, h.newest, h.indices⟩
    obtain ⟨hstrung, hnode, hsize, hindex, hspare⟩ := hstrung₁.unlink
    have hindices := h.indices
    simp only [Chain.indices, List.map_append, List.map_cons] at hindices
    have hfree : ∀ j, j ∈ Chain.indices (a ++ b) → j ≠ i ∧ j ∈ Chain.indices (a ++ (i, page) :: b) := by
      intro j hj
      simp only [Chain.indices, List.map_append, List.mem_append, List.map_cons] at hj ⊢
      obtain ⟨ha, hib, hdisjoint⟩ := List.nodup_append.mp hindices
      refine ⟨?_, hj.imp id (List.mem_cons_of_mem _)⟩
      rintro rfl
      rcases hj with hj | hj
      · exact hdisjoint j hj j List.mem_cons_self rfl
      · exact (List.nodup_cons.mp hib).1 hj
    have hi : i ∈ Chain.indices (a ++ (i, page) :: b) := by simp [Chain.indices]
    simp only
    generalize { r with index := r.index.erase page }.unlink i = r₁ at *
    refine ⟨a ++ b, ⟨⟨hstrung.segment, hstrung.oldest, hstrung.newest, hstrung.indices⟩,
      fun q j => ?_, ?_, fun j hj => ?_⟩, h.erase_pages.symm⟩
    · rw [hindex, SortedMap.get?_erase]
      split
      case isTrue heq =>
        subst heq
        have hgone : page ∉ Chain.pages (a ++ b) := by
          rw [← h.erase_pages]
          exact h.pages_nodup.not_mem_erase
        exact ⟨nofun, fun hmem => absurd (List.mem_map.mpr ⟨_, hmem, rfl⟩) hgone⟩
      case isFalse hne =>
        rw [h.index]
        simp [Ne.symm hne]
    · rw [hspare]
      exact List.nodup_cons.mpr ⟨fun hmem => (h.spare_lt i hmem).2 hi, h.spare⟩
    · rw [hspare] at hj
      rw [hsize]
      rcases List.mem_cons.mp hj with rfl | hj
      · exact ⟨h.segment.lt_size hi, fun hmem => (hfree _ hmem).1 rfl⟩
      · obtain ⟨hlt, hj'⟩ := h.spare_lt j hj
        exact ⟨hlt, fun hmem => hj' (hfree j hmem).2⟩

/-! ## The order that is seen -/

theorem Linked.touch (hr : r.Linked) (page : PageId) : (r.touch page).Linked := by
  obtain ⟨c, h⟩ := hr
  obtain ⟨d, hd, -⟩ := h.touch page
  exact ⟨d, hd⟩

theorem Linked.remove (hr : r.Linked) (page : PageId) : (r.remove page).2.Linked := by
  obtain ⟨c, h⟩ := hr
  obtain ⟨d, hd, -⟩ := h.remove page
  exact ⟨d, hd⟩

theorem toList_touch (hr : r.Linked) (page : PageId) :
    (r.touch page).toList = r.toList.erase page ++ [page] := by
  obtain ⟨c, h⟩ := hr
  obtain ⟨d, hd, hpages⟩ := h.touch page
  rw [hd.toList_eq, h.toList_eq, hpages]

theorem toList_remove (hr : r.Linked) (page : PageId) :
    (r.remove page).2.toList = r.toList.erase page := by
  obtain ⟨c, h⟩ := hr
  obtain ⟨d, hd, hpages⟩ := h.remove page
  rw [hd.toList_eq, h.toList_eq, hpages]

end Recency

end PagedHeap
