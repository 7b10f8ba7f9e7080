import PagedHeap.Proofs.Recency

/-!
# No access leaves the array

The ends of the list, the links, the index and the spare list hold positions of the array and
nothing else, whatever pages are touched and removed.  So nothing would change if every access
stopped at a position that the array does not have.
-/

namespace PagedHeap.Recency

variable {r : Recency} {node : Node} {i : Nat} {link : Option Nat} {page : PageId}

/-! ## Operations that stop outside the array -/

def setNewer? (r : Recency) (i : Nat) (link : Option Nat) : Option Recency :=
  if i < r.nodes.size then some (r.setNewer i link) else none

def setOlder? (r : Recency) (i : Nat) (link : Option Nat) : Option Recency :=
  if i < r.nodes.size then some (r.setOlder i link) else none

/-- The part of linking a node in that the newest one so far sees. -/
def tieNewest (r : Recency) (i : Nat) : Recency :=
  match r.newest with
  | some j => r.setNewer j (some i)
  | none => { r with oldest := some i }

def tieNewest? (r : Recency) (i : Nat) : Option Recency :=
  match r.newest with
  | some j => r.setNewer? j (some i)
  | none => some { r with oldest := some i }

def linkNewest? (r : Recency) (i : Nat) : Option Recency := do
  let r ← r.setNewer? i none
  let r ← r.setOlder? i r.newest
  let r ← r.tieNewest? i
  return { r with newest := some i }

def joinNewer? (r : Recency) (node : Node) : Option Recency :=
  match node.newer with
  | some j => r.setOlder? j node.older
  | none => some { r with newest := node.older }

def joinOlder? (r : Recency) (node : Node) : Option Recency :=
  match node.older with
  | some j => r.setNewer? j node.newer
  | none => some { r with oldest := node.newer }

def unlink? (r : Recency) (i : Nat) : Option Recency := do
  let node ← r.nodes[i]?
  let r ← r.joinNewer? node
  let r ← r.joinOlder? node
  let r ← r.setNewer? i none
  r.setOlder? i none

def allocate? (r : Recency) (page : PageId) : Option (Nat × Recency) :=
  match r.spare with
  | i :: _ => if i < r.nodes.size then some (r.allocate page) else none
  | [] => some (r.allocate page)

/-- `touch`, unless it addresses a node that is not there. -/
def touch? (r : Recency) (page : PageId) : Option Recency :=
  match r.index.get? page with
  | some i => if r.newest = some i then some r else do (← r.unlink? i).linkNewest? i
  | none => do
    let (i, r) ← r.allocate? page
    { r with index := r.index.insert page i }.linkNewest? i

/-- `remove`, unless it addresses a node that is not there. -/
def remove? (r : Recency) (page : PageId) : Option (Bool × Recency) :=
  match r.index.get? page with
  | none => some (false, r)
  | some i => do
    let r ← { r with index := r.index.erase page }.unlink? i
    return (true, { r with spare := i :: r.spare })

theorem setNewer?_eq (hi : i < r.nodes.size) (link : Option Nat) :
    r.setNewer? i link = some (r.setNewer i link) :=
  if_pos hi

theorem setOlder?_eq (hi : i < r.nodes.size) (link : Option Nat) :
    r.setOlder? i link = some (r.setOlder i link) :=
  if_pos hi

theorem joinNewer?_eq (hnewer : ∀ j ∈ node.newer, j < r.nodes.size) :
    r.joinNewer? node = some (r.joinNewer node) := by
  unfold joinNewer? joinNewer
  cases hj : node.newer with
  | some j => exact setOlder?_eq (hnewer j hj) node.older
  | none => rfl

theorem joinOlder?_eq (holder : ∀ j ∈ node.older, j < r.nodes.size) :
    r.joinOlder? node = some (r.joinOlder node) := by
  unfold joinOlder? joinOlder
  cases hj : node.older with
  | some j => exact setNewer?_eq (holder j hj) node.newer
  | none => rfl

theorem tieNewest?_eq (hnewest : ∀ j ∈ r.newest, j < r.nodes.size) (i : Nat) :
    r.tieNewest? i = some (r.tieNewest i) := by
  unfold tieNewest? tieNewest
  cases hj : r.newest with
  | some j => exact setNewer?_eq (hnewest j hj) (some i)
  | none => rfl

theorem linkNewest_eq (r : Recency) (i : Nat) :
    r.linkNewest i =
      { ((r.setNewer i none).setOlder i r.newest).tieNewest i with newest := some i } := rfl

/-! ## What linking leaves alone -/

@[simp] theorem size_setNewer (r : Recency) (i : Nat) (link : Option Nat) :
    (r.setNewer i link).nodes.size = r.nodes.size :=
  Array.size_modify

@[simp] theorem size_setOlder (r : Recency) (i : Nat) (link : Option Nat) :
    (r.setOlder i link).nodes.size = r.nodes.size :=
  Array.size_modify

@[simp] theorem size_joinNewer (r : Recency) (node : Node) :
    (r.joinNewer node).nodes.size = r.nodes.size := by
  rw [joinNewer]
  split <;> simp

@[simp] theorem size_joinOlder (r : Recency) (node : Node) :
    (r.joinOlder node).nodes.size = r.nodes.size := by
  rw [joinOlder]
  split <;> simp

@[simp] theorem size_tieNewest (r : Recency) (i : Nat) :
    (r.tieNewest i).nodes.size = r.nodes.size := by
  rw [tieNewest]
  split <;> simp

@[simp] theorem spare_joinNewer (r : Recency) (node : Node) :
    (r.joinNewer node).spare = r.spare := by
  rw [joinNewer]
  split <;> rfl

@[simp] theorem spare_joinOlder (r : Recency) (node : Node) :
    (r.joinOlder node).spare = r.spare := by
  rw [joinOlder]
  split <;> rfl

@[simp] theorem size_unlink (r : Recency) (i : Nat) :
    (r.unlink i).nodes.size = r.nodes.size := by
  cases hnode : r.nodes[i]? with
  | none => rw [unlink, hnode]
  | some node => simp [unlink_eq hnode]

@[simp] theorem spare_unlink (r : Recency) (i : Nat) : (r.unlink i).spare = r.spare := by
  cases hnode : r.nodes[i]? with
  | none => rw [unlink, hnode]
  | some node =>
    rw [unlink_eq hnode]
    exact (spare_joinOlder ..).trans (spare_joinNewer ..)

@[simp] theorem size_linkNewest (r : Recency) (i : Nat) :
    (r.linkNewest i).nodes.size = r.nodes.size := by
  simp [linkNewest_eq]

@[simp] theorem spare_linkNewest (r : Recency) (i : Nat) :
    (r.linkNewest i).spare = r.spare := by
  rw [linkNewest]
  split <;> rfl

/-! ## Every position that is stored is one of the array -/

/-- The neighbours of a node are among the first `n` nodes. -/
def LinksBelow (n : Nat) (node : Node) : Prop :=
  (∀ i ∈ node.newer, i < n) ∧ ∀ i ∈ node.older, i < n

structure InBounds (r : Recency) : Prop where
  newest : ∀ i ∈ r.newest, i < r.nodes.size
  oldest : ∀ i ∈ r.oldest, i < r.nodes.size
  links : ∀ node ∈ r.nodes, LinksBelow r.nodes.size node
  index : ∀ page, ∀ i ∈ r.index.get? page, i < r.nodes.size
  spare : ∀ i ∈ r.spare, i < r.nodes.size

theorem mem_modify {nodes : Array Node} {f : Node → Node} (h : node ∈ nodes.modify i f) :
    node ∈ nodes ∨ ∃ old ∈ nodes, node = f old := by
  obtain ⟨k, hk⟩ := Array.mem_iff_getElem?.mp h
  rw [Array.getElem?_modify] at hk
  split at hk
  · obtain ⟨old, hold, rfl⟩ := Option.map_eq_some_iff.mp hk
    exact Or.inr ⟨old, Array.mem_of_getElem? hold, rfl⟩
  · exact Or.inl (Array.mem_of_getElem? hk)

namespace InBounds

theorem empty : InBounds ∅ where
  newest := nofun
  oldest := nofun
  links node h := absurd h (Array.not_mem_empty node)
  index _ := nofun
  spare := nofun

theorem setNodes (h : r.InBounds) {nodes : Array Node} (hsize : r.nodes.size ≤ nodes.size)
    (hlinks : ∀ node ∈ nodes, LinksBelow nodes.size node) :
    InBounds { r with nodes := nodes } where
  newest i hi := Nat.lt_of_lt_of_le (h.newest i hi) hsize
  oldest i hi := Nat.lt_of_lt_of_le (h.oldest i hi) hsize
  links := hlinks
  index page i hi := Nat.lt_of_lt_of_le (h.index page i hi) hsize
  spare i hi := Nat.lt_of_lt_of_le (h.spare i hi) hsize

theorem modify (h : r.InBounds) (i : Nat) (f : Node → Node)
    (hf : ∀ node ∈ r.nodes, LinksBelow r.nodes.size (f node)) :
    InBounds { r with nodes := r.nodes.modify i f } := by
  apply h.setNodes (Nat.le_of_eq Array.size_modify.symm)
  intro node hmem
  rw [Array.size_modify]
  obtain hold | ⟨old, hold, rfl⟩ := mem_modify hmem
  · exact h.links node hold
  · exact hf old hold

/-- A node without links may stand anywhere. -/
theorem setUnlinked (h : r.InBounds) (page : PageId) {nodes : Array Node}
    (hsize : r.nodes.size ≤ nodes.size)
    (hnodes : ∀ node ∈ nodes, node ∈ r.nodes ∨ node = ⟨page, none, none⟩) :
    InBounds { r with nodes := nodes } := by
  apply h.setNodes hsize
  intro node hmem
  obtain hold | rfl := hnodes node hmem
  · obtain ⟨hnewer, holder⟩ := h.links node hold
    exact ⟨fun i hi => Nat.lt_of_lt_of_le (hnewer i hi) hsize,
      fun i hi => Nat.lt_of_lt_of_le (holder i hi) hsize⟩
  · exact ⟨nofun, nofun⟩

theorem setNewer (h : r.InBounds) (i : Nat) (hlink : ∀ j ∈ link, j < r.nodes.size) :
    (r.setNewer i link).InBounds :=
  h.modify i _ fun node hmem => ⟨hlink, (h.links node hmem).2⟩

theorem setOlder (h : r.InBounds) (i : Nat) (hlink : ∀ j ∈ link, j < r.nodes.size) :
    (r.setOlder i link).InBounds :=
  h.modify i _ fun node hmem => ⟨(h.links node hmem).1, hlink⟩

theorem setNewest (h : r.InBounds) (hlink : ∀ j ∈ link, j < r.nodes.size) :
    InBounds { r with newest := link } :=
  { h with newest := hlink }

theorem setOldest (h : r.InBounds) (hlink : ∀ j ∈ link, j < r.nodes.size) :
    InBounds { r with oldest := link } :=
  { h with oldest := hlink }

theorem setIndex (h : r.InBounds) {index : SortedMap PageId Nat}
    (hindex : ∀ page, ∀ i ∈ index.get? page, i < r.nodes.size) :
    InBounds { r with index := index } :=
  { h with index := hindex }

theorem setSpare (h : r.InBounds) (spare : List Nat) (hspare : ∀ i ∈ spare, i < r.nodes.size) :
    InBounds { r with spare := spare } :=
  { h with spare := hspare }

theorem joinNewer (h : r.InBounds) (holder : ∀ j ∈ node.older, j < r.nodes.size) :
    (r.joinNewer node).InBounds := by
  rw [Recency.joinNewer]
  split
  · exact h.setOlder _ holder
  · exact h.setNewest holder

theorem joinOlder (h : r.InBounds) (hnewer : ∀ j ∈ node.newer, j < r.nodes.size) :
    (r.joinOlder node).InBounds := by
  rw [Recency.joinOlder]
  split
  · exact h.setNewer _ hnewer
  · exact h.setOldest hnewer

theorem unlink (h : r.InBounds) (hi : i < r.nodes.size) :
    r.unlink? i = some (r.unlink i) ∧ (r.unlink i).InBounds := by
  have hmem : r.nodes[i] ∈ r.nodes := Array.getElem_mem hi
  have hnode : r.nodes[i]? = some r.nodes[i] := Array.getElem?_eq_getElem hi
  generalize r.nodes[i] = node at hmem hnode
  obtain ⟨hnewer, holder⟩ := h.links node hmem
  rw [unlink_eq hnode]
  constructor
  · calc
      r.unlink? i = (r.joinNewer? node).bind fun r' => (r'.joinOlder? node).bind fun r' =>
          (r'.setNewer? i none).bind fun r' => r'.setOlder? i none := by
        rw [unlink?, hnode]
        rfl
      _ = (((r.joinNewer node).joinOlder node).setNewer? i none).bind fun r' =>
          r'.setOlder? i none := by
        rw [joinNewer?_eq hnewer, Option.bind_some, joinOlder?_eq (by simpa using holder),
          Option.bind_some]
      _ = _ := by
        rw [setNewer?_eq (by simpa using hi), Option.bind_some, setOlder?_eq (by simpa using hi)]
  · have hjoined := (h.joinNewer holder).joinOlder (by simpa using hnewer)
    exact (hjoined.setNewer i (by simp)).setOlder i (by simp)

theorem tieNewest (h : r.InBounds) (hi : i < r.nodes.size) : (r.tieNewest i).InBounds := by
  have hown : ∀ j ∈ some i, j < r.nodes.size := by
    rintro j ⟨⟩
    exact hi
  rw [Recency.tieNewest]
  split
  · exact h.setNewer _ hown
  · exact h.setOldest hown

theorem linkNewest (h : r.InBounds) (hi : i < r.nodes.size) :
    r.linkNewest? i = some (r.linkNewest i) ∧ (r.linkNewest i).InBounds := by
  have h₁ : ((r.setNewer i none).setOlder i r.newest).InBounds :=
    (h.setNewer i (by simp)).setOlder i (by simpa using h.newest)
  constructor
  · calc
      r.linkNewest? i = (r.setNewer? i none).bind fun r' =>
          (r'.setOlder? i r'.newest).bind fun r' =>
          (r'.tieNewest? i).bind fun r' => some { r' with newest := some i } := rfl
      _ = (((r.setNewer i none).setOlder i r.newest).tieNewest? i).bind fun r' =>
          some { r' with newest := some i } := by
        rw [setNewer?_eq hi, Option.bind_some, setOlder?_eq (by simpa using hi), Option.bind_some]
        rfl
      _ = some (r.linkNewest i) := by
        rw [tieNewest?_eq h₁.newest, Option.bind_some, linkNewest_eq]
  · rw [linkNewest_eq]
    refine (h₁.tieNewest (by simpa using hi)).setNewest ?_
    rintro j ⟨⟩
    simpa using hi

/-- A page is given a node of the array. -/
theorem allocate (h : r.InBounds) (page : PageId) :
    r.allocate? page = some (r.allocate page) ∧ (r.allocate page).2.InBounds ∧
      (r.allocate page).1 < (r.allocate page).2.nodes.size := by
  unfold allocate? Recency.allocate
  cases hspare : r.spare with
  | cons i rest =>
    have hi : i < r.nodes.size := h.spare i (by simp [hspare])
    have hrest : InBounds { r with spare := rest } :=
      h.setSpare rest fun j hj => h.spare j (by simp [hspare, hj])
    refine ⟨if_pos hi, hrest.setUnlinked page ?_ ?_, ?_⟩
    · exact Nat.le_of_eq Array.size_setIfInBounds.symm
    · exact fun node hmem => Array.mem_or_eq_of_mem_setIfInBounds hmem
    · simpa using hi
  | nil =>
    have hnone : InBounds { r with spare := [] } := h.setSpare [] (by simp)
    refine ⟨rfl, hnone.setUnlinked page ?_ ?_, ?_⟩
    · simp
    · exact fun node hmem => Array.mem_push.mp hmem
    · simp

theorem touch (h : r.InBounds) (page : PageId) :
    r.touch? page = some (r.touch page) ∧ (r.touch page).InBounds := by
  rw [touch?, Recency.touch]
  cases hpage : r.index.get? page with
  | some i =>
    have hi := h.index page i hpage
    obtain ⟨hunlink, h₁⟩ := h.unlink hi
    obtain ⟨hlink, h₂⟩ := h₁.linkNewest (i := i) (by simpa using hi)
    simp only
    split
    · exact ⟨rfl, h⟩
    · rw [hunlink]
      exact ⟨hlink, h₂⟩
  | none =>
    obtain ⟨hallocate, h₁, hi⟩ := h.allocate page
    simp only [hallocate, Option.bind_eq_bind, Option.bind_some]
    refine (h₁.setIndex fun q j hj => ?_).linkNewest hi
    rw [Option.mem_def, SortedMap.get?_insert] at hj
    split at hj
    · exact Option.some.inj hj ▸ hi
    · exact h₁.index q j hj

theorem remove (h : r.InBounds) (page : PageId) :
    r.remove? page = some (r.remove page) ∧ (r.remove page).2.InBounds := by
  rw [remove?, Recency.remove]
  cases hpage : r.index.get? page with
  | none => exact ⟨rfl, h⟩
  | some i =>
    have hi := h.index page i hpage
    have h₁ : InBounds { r with index := r.index.erase page } := h.setIndex fun q j hj => by
      rw [Option.mem_def, SortedMap.get?_erase] at hj
      split at hj
      · cases hj
      · exact h.index q j hj
    obtain ⟨hunlink, h₂⟩ := h₁.unlink hi
    simp only [hunlink, Option.bind_eq_bind, Option.bind_some]
    refine ⟨rfl, h₂.setSpare _ fun j hj => ?_⟩
    rw [size_unlink]
    obtain rfl | hj := List.mem_cons.mp hj
    · exact hi
    · rw [spare_unlink] at hj
      exact h.spare j hj

end InBounds

end PagedHeap.Recency
