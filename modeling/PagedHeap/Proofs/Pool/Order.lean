import Mathlib.Data.List.Dedup
import PagedHeap.Proofs.Pool.Cache
import PagedHeap.Proofs.Recency

/-!
# The cache in the order of use

The cached pages are listed from the least to the most recently used one.  The map and the list name
the same pages, and there are no more of them than the capacity allows.  A page that is used goes to
the end of the list; if it was not cached and the cache is full, then the first page goes that is
clean and that nobody refers to.
-/

namespace PagedHeap

namespace Buffer

variable {b b' : Buffer} {id q victim : PageId} {f : FrameId}

/-- The cached pages, the least recently used one first. -/
def order (b : Buffer) : List PageId :=
  b.recency.toList

structure Listed (b : Buffer) : Prop where
  linked : b.recency.Linked
  mem_iff : ∀ id, id ∈ b.order ↔ b.isCached id = true
  length_le : b.order.length ≤ b.capacity

/-- Using a page brings it to the end of the list, and makes room if need be. -/
inductive Uses (b : Buffer) (id : PageId) (b' : Buffer) : Prop
  | again (hid : id ∈ b.order) (horder : b'.order = b.order.erase id ++ [id])
  | first (hid : id ∉ b.order) (hroom : b.order.length < b.capacity)
      (horder : b'.order = b.order ++ [id])
  | instead (victim : PageId) (hid : id ∉ b.order) (hfull : b.order.length = b.capacity)
      (hvictim : b.order.find? b.isEvictable = some victim)
      (horder : b'.order = b.order.erase victim ++ [id])

theorem Uses.of_order_eq {b'' : Buffer} (h : b.Uses id b') (horder : b''.order = b'.order) :
    b.Uses id b'' := by
  cases h with
  | again hid horder' => exact .again hid (horder.trans horder')
  | first hid hroom horder' => exact .first hid hroom (horder.trans horder')
  | instead victim hid hfull hvictim horder' =>
    exact .instead victim hid hfull hvictim (horder.trans horder')

theorem isCached_iff : b.isCached id = true ↔ ∃ f, b.cached? id = some f :=
  Option.isSome_iff_exists

theorem isEvictable_iff :
    b.isEvictable id = true ↔
      ∃ f, b.cached? id = some f ∧ (b.page f).dirtier = none ∧ ∀ who, b.holders.get? who ≠ some f := by
  rw [isEvictable]
  cases hf : b.cached? id with
  | none => simp
  | some f =>
    have hpinned : b.isPinned f = false ↔ ∀ who, b.holders.get? who ≠ some f := by
      rw [← Bool.not_eq_true, isPinned, List.contains_iff_mem, SortedMap.values, List.mem_map,
        not_exists]
      constructor
      · intro hnone who hwho
        exact hnone (who, f) ⟨SortedMap.get?_eq_some.mp hwho, rfl⟩
      · rintro hnone ⟨who, f'⟩ ⟨hmem, rfl⟩
        exact hnone who (SortedMap.get?_eq_some.mpr hmem)
    have hdirty : (b.page f).isDirty = false ↔ (b.page f).dirtier = none := by
      rw [Page.isDirty, Option.isSome_eq_false_iff, Option.isNone_iff_eq_none]
    simp [hpinned, hdirty, and_comm]

theorem listed_empty (capacity : Nat) : (empty capacity).Listed where
  linked := Recency.linked_empty
  mem_iff _ := (Recency.mem_toList Recency.linked_empty).trans ⟨nofun, nofun⟩
  length_le := Nat.zero_le _

namespace Listed

theorem nodup (hb : b.Listed) : b.order.Nodup :=
  Recency.nodup_toList hb.linked

/-- The map is as large as the list is long. -/
theorem size_eq (hb : b.Listed) : b.size = b.order.length :=
  SortedMap.size_eq_length hb.nodup hb.mem_iff

theorem order_touch (hb : b.Listed) (id : PageId) :
    (b.touch id).order = b.order.erase id ++ [id] :=
  Recency.toList_touch hb.linked id

theorem touch (hb : b.Listed) (hid : b.isCached id = true) : (b.touch id).Listed where
  linked := hb.linked.touch id
  mem_iff q := by
    have hsame : (b.touch id).isCached q = b.isCached q := rfl
    rw [hb.order_touch, List.mem_append, List.mem_singleton, hb.nodup.mem_erase_iff, hb.mem_iff,
      hsame]
    by_cases hq : q = id
    · simp [hq, hid]
    · simp [hq]
  length_le := by
    have hmem := (hb.mem_iff id).mpr hid
    have hpos := List.length_pos_of_mem hmem
    have hle := hb.length_le
    rw [hb.order_touch, List.length_append, List.length_erase_of_mem hmem, List.length_singleton]
    exact Nat.le_trans (Nat.le_of_eq (Nat.sub_add_cancel hpos)) hle

/-- Buffers with the same cache and the same list are listed alike. -/
theorem congr (hb : b.Listed) (hcapacity : b'.capacity = b.capacity) (hcache : b'.cache = b.cache)
    (hrecency : b'.recency = b.recency) : b'.Listed where
  linked := hrecency ▸ hb.linked
  mem_iff id := by
    rw [order, hrecency, isCached, hcache]
    exact hb.mem_iff id
  length_le := by
    rw [order, hrecency, hcapacity]
    exact hb.length_le

theorem order_enter (hb : b.Listed) (id : PageId) (f : FrameId) :
    (b.enter id f).order = b.order.erase id ++ [id] :=
  Recency.toList_touch hb.linked id

theorem isCached_enter (b : Buffer) (id : PageId) (f : FrameId) (q : PageId) :
    (b.enter id f).isCached q = true ↔ q = id ∨ b.isCached q = true := by
  have henter := cached?_enter b id f q
  rw [isCached_iff, isCached_iff, henter]
  by_cases hq : q = id
  · simp [hq]
  · simp [hq, Ne.symm hq]

theorem enter (hb : b.Listed) (f : FrameId)
    (hroom : b.isCached id = true ∨ b.order.length < b.capacity) : (b.enter id f).Listed where
  linked := hb.linked.touch id
  mem_iff q := by
    rw [hb.order_enter, isCached_enter, List.mem_append, List.mem_singleton,
      hb.nodup.mem_erase_iff, hb.mem_iff]
    by_cases hq : q = id
    · simp [hq]
    · simp [hq]
  length_le := by
    have hcapacity : (b.enter id f).capacity = b.capacity := rfl
    have hle := hb.length_le
    rw [hb.order_enter, hcapacity, List.length_append, List.length_singleton]
    by_cases hmem : id ∈ b.order
    · have hpos := List.length_pos_of_mem hmem
      rw [List.length_erase_of_mem hmem]
      omega
    · have hlt := hroom.resolve_left fun hid => hmem ((hb.mem_iff id).mpr hid)
      rw [List.erase_of_not_mem hmem]
      exact hlt

theorem order_discard (hb : b.Listed) (id : PageId) :
    (b.discard id).order = b.order.erase id := by
  rw [Buffer.discard]
  split
  case isTrue => exact Recency.toList_remove hb.linked id
  case isFalse hnot => exact (List.erase_of_not_mem fun hmem => hnot ((hb.mem_iff id).mp hmem)).symm

theorem isCached_discard (b : Buffer) (id q : PageId) :
    (b.discard id).isCached q = true ↔ q ≠ id ∧ b.isCached q = true := by
  rw [isCached_iff, isCached_iff, cached?_discard]
  by_cases hq : q = id
  · simp [hq]
  · simp [hq, Ne.symm hq]

theorem discard (hb : b.Listed) (id : PageId) : (b.discard id).Listed where
  linked := by
    rw [Buffer.discard]
    split
    · exact hb.linked.remove id
    · exact hb.linked
  mem_iff q := by
    rw [hb.order_discard, isCached_discard, hb.nodup.mem_erase_iff, hb.mem_iff]
  length_le := by
    rw [hb.order_discard, capacity_discard]
    exact Nat.le_trans (List.length_erase_le ..) hb.length_le

/-- Caching a page that is not cached uses it, or finds nothing that may go. -/
theorem add_cases (hb : b.Listed) (hid : id ∉ b.order) (f : FrameId) :
    (∃ b', b.add id f = .ok b' ∧ b'.Listed ∧ b.Uses id b') ∨
      b.add id f = .error (.exhausted b.capacity) ∧ b.order.length = b.capacity ∧
        b.order.find? b.isEvictable = none := by
  rw [add, hb.size_eq]
  split
  case isFalse hroom =>
    have hlt := Nat.lt_of_not_le hroom
    refine Or.inl ⟨_, rfl, hb.enter f (Or.inr hlt), .first hid hlt ?_⟩
    rw [hb.order_enter, List.erase_of_not_mem hid]
  case isTrue hfull =>
    have hlength := Nat.le_antisymm hb.length_le hfull
    cases hvictim : b.victim? with
    | none => exact Or.inr ⟨rfl, hlength, hvictim⟩
    | some victim =>
      have hmem : victim ∈ b.order := List.mem_of_find?_eq_some hvictim
      have hpos := List.length_pos_of_mem hmem
      have hdiscard := hb.discard victim
      have hnot : id ∉ (b.discard victim).order := by
        rw [hb.order_discard]
        exact fun h => hid (List.mem_of_mem_erase h)
      refine Or.inl ⟨_, rfl, hdiscard.enter f (Or.inr ?_), .instead victim hid hlength hvictim ?_⟩
      · rw [hb.order_discard, capacity_discard, List.length_erase_of_mem hmem]
        omega
      · rw [hdiscard.order_enter, List.erase_of_not_mem hnot, hb.order_discard]

end Listed

/-! ## The last uses -/

/-- `dedup` keeps the last of equal elements. -/
theorem dedup_append_singleton (used : List PageId) (id : PageId) :
    (used ++ [id]).dedup = used.dedup.erase id ++ [id] := by
  induction used with
  | nil => simp
  | cons a used ih =>
    rw [List.cons_append]
    by_cases hused : a ∈ used
    · rw [List.dedup_cons_of_mem (List.mem_append_left _ hused), List.dedup_cons_of_mem hused, ih]
    · rw [List.dedup_cons_of_notMem hused]
      by_cases ha : a = id
      · subst ha
        rw [List.dedup_cons_of_mem (by simp), ih, List.erase_cons_head,
          List.erase_of_not_mem (by rwa [List.mem_dedup])]
      · rw [List.dedup_cons_of_notMem (by simp [hused, ha]), ih, List.erase_cons_tail (by simpa using ha),
          List.cons_append]

/-- A page that is used stands behind all others, in whatever order they were used. -/
theorem Uses.sublist {used : List PageId} (h : b.Uses id b') (hused : b.order.Sublist used.dedup) :
    b'.order.Sublist (used ++ [id]).dedup := by
  rw [dedup_append_singleton]
  cases h with
  | again hid horder =>
    rw [horder]
    exact (hused.erase id).append (List.Sublist.refl _)
  | first hid hroom horder =>
    rw [horder, ← List.erase_of_not_mem hid]
    exact (hused.erase id).append (List.Sublist.refl _)
  | instead victim hid _ _ horder =>
    have hnot : id ∉ b.order.erase victim := fun hmem => hid (List.mem_of_mem_erase hmem)
    rw [horder, ← List.erase_of_not_mem hnot]
    exact (((List.erase_sublist ..).trans hused).erase id).append (List.Sublist.refl _)

end Buffer

end PagedHeap
