import PagedHeap.Disk.Store

/-!
# What a disk shows

A disk is looked at through the pages it can be asked for.  Reading changes none of them, writing a
page that is there changes that one, and appending adds a blank one, until the page numbers are used
up: then the count starts again at zero and the pages of the file are out of reach.
-/

namespace PagedHeap

/-- One more than the largest page number. -/
def pageBound : Nat := UInt32.size

theorem PageId.eq_of_toNat {p q : PageId} (htable : p.table = q.table)
    (hno : p.pageNo.toNat = q.pageNo.toNat) : p = q := by
  cases p
  cases q
  exact (PageId.mk.injEq ..).mpr ⟨htable, UInt32.toNat_inj.mp hno⟩

namespace Medium

variable {m : Medium} {n k : Nat} {img : Image}

theorem block_writeBlock (m : Medium) (n k : Nat) (img : Image) :
    (m.writeBlock n img).block k = if n = k then img else m.block k :=
  blockOf_insert m.blocks n k img

theorem length_writeBlock_of_lt (h : n < m.length / pageSize) :
    (m.writeBlock n img).length = m.length := by
  have hend : (n + 1) * pageSize ≤ m.length := by
    have hle : (n + 1) * pageSize ≤ m.length / pageSize * pageSize :=
      Nat.mul_le_mul_right _ h
    exact Nat.le_trans hle (Nat.div_mul_le_self _ _)
  exact Nat.max_eq_left hend

theorem pages_writeBlock_self :
    (m.writeBlock (m.length / pageSize) img).length / pageSize = m.length / pageSize + 1 := by
  have hpos : 0 < pageSize := by decide
  have hlt : m.length < (m.length / pageSize + 1) * pageSize :=
    Nat.lt_mul_of_div_lt (Nat.lt_succ_self _) hpos
  have hlength : (m.writeBlock (m.length / pageSize) img).length =
      (m.length / pageSize + 1) * pageSize := Nat.max_eq_right (Nat.le_of_lt hlt)
  rw [hlength, Nat.mul_div_cancel _ hpos]

end Medium

namespace Store

/-- What stays when a page is read and when the device is switched between working and failing. -/
def file (s : Store) : TableId × Medium × List Detour :=
  (s.volume.table, s.volume.medium, s.detours)

end Store

namespace Disk

variable {d a b c : Disk} {s s' : Store} {table u : TableId} {id q : PageId} {img : Image}
  {page : Page}

/-- The image of a page that its store can be asked for. -/
def image? (d : Disk) (id : PageId) : Option Image :=
  (d.store? id.table).bind fun s =>
    if s.volume.contains id then some (s.volume.image id.pageNo) else none

/-- The number of pages in the file of a table, not cut to 32 bits. -/
def pages (d : Disk) (table : TableId) : Nat :=
  match d.store? table with
  | some s => s.volume.medium.length / pageSize
  | none => 0

theorem pageCount_eq (d : Disk) (table : TableId) :
    d.pageCount table = UInt32.ofNat (d.pages table) := by
  rw [pageCount, pages]
  cases d.store? table with
  | none => rfl
  | some s => rfl

/-- If the pages can be counted at all, then the count is right. -/
theorem count_eq_ok {n : UInt32} (h : d.count id = .ok n) : n = d.pageCount id.table := by
  rw [count] at h
  cases hs : d.store? id.table with
  | none =>
    rw [hs] at h
    exact (Except.ok.inj h).symm
  | some s =>
    simp only [hs, Store.measure] at h
    split at h
    case isTrue => cases h
    case isFalse => exact (Except.ok.inj h).symm

/-- While page numbers are left the count of pages is not cut. -/
theorem toNat_pageCount (h : d.pages table < pageBound) :
    (d.pageCount table).toNat = d.pages table := by
  rw [pageCount_eq, UInt32.toNat_ofNat']
  exact Nat.mod_eq_of_lt h

theorem toNat_pageCount_le (d : Disk) (table : TableId) :
    (d.pageCount table).toNat ≤ d.pages table := by
  rw [pageCount_eq, UInt32.toNat_ofNat']
  exact Nat.mod_le _ _

/-- Every store belongs to its table, and has no business of its own. -/
def Mounted (d : Disk) : Prop :=
  ∀ table s, d.store? table = some s → s.volume.table = table ∧ s.detours = []

theorem store?_put (d : Disk) (table u : TableId) (s : Store) :
    (d.put table s).store? u = if table = u then some s else d.store? u :=
  SortedMap.get?_insert d.stores table u s

theorem pages_eq (hs : d.store? table = some s) :
    d.pages table = s.volume.medium.length / pageSize := by
  rw [pages, hs]

theorem pages_put (d : Disk) (table u : TableId) (s : Store) :
    (d.put table s).pages u =
      if table = u then s.volume.medium.length / pageSize else d.pages u := by
  rw [pages, store?_put]
  by_cases h : table = u
  · rw [if_pos h, if_pos h]
  · rw [if_neg h, if_neg h, pages]

theorem contains_iff (hs : s.volume.table = id.table) :
    s.volume.contains id = true ↔
      id.pageNo.toNat < s.volume.medium.length / pageSize % pageBound := by
  rw [Volume.contains, Volume.owns, hs, Bool.and_eq_true, decide_eq_true_eq, UInt32.lt_iff_toNat_lt,
    Volume.pageCount, UInt32.toNat_ofNat']
  exact and_iff_right (beq_self_eq_true _)

theorem mounted_empty : Mounted ∅ := by
  intro table s hs
  cases hs

theorem store?_addTable (d : Disk) (table u : TableId) :
    (d.addTable table).store? u =
      if table = u then some ((d.store? u).getD { volume := Volume.mount table Medium.empty })
      else d.store? u := by
  have hstores : (d.addTable table).store? u = ((if d.stores.contains table then d else
      d.put table { volume := Volume.mount table Medium.empty }).store? u) := rfl
  rw [hstores]
  split
  case isTrue hthere =>
    obtain ⟨s, hs⟩ := Option.isSome_iff_exists.mp hthere
    split
    case isTrue heq =>
      have hs' : d.store? u = some s := heq ▸ hs
      rw [hs', Option.getD_some]
    case isFalse => rfl
  case isFalse hnone =>
    rw [store?_put]
    split
    case isTrue heq =>
      have hnone' : d.store? u = none := by
        rw [← heq]
        exact Option.not_isSome_iff_eq_none.mp hnone
      rw [hnone', Option.getD_none]
    case isFalse => rfl

theorem store?_of_addTable (h : (d.addTable table).store? u = some s) :
    d.store? u = some s ∨ table = u ∧ s = { volume := Volume.mount table Medium.empty } := by
  rw [store?_addTable] at h
  split at h
  case isFalse => exact Or.inl h
  case isTrue heq =>
    obtain rfl := Option.some.inj h
    cases d.store? u with
    | some s => exact Or.inl rfl
    | none => exact Or.inr ⟨heq, rfl⟩

theorem catalog_addTable (d : Disk) (table : TableId) :
    (d.addTable table).catalog = d.catalog.insert table := by
  rw [addTable]
  split
  · rfl
  · rfl

theorem Mounted.addTable (hm : d.Mounted) (table : TableId) : (d.addTable table).Mounted := by
  intro u s hs
  rcases store?_of_addTable hs with hs | ⟨rfl, rfl⟩
  · exact hm u s hs
  · exact ⟨rfl, rfl⟩

theorem image?_eq (hm : d.Mounted) (hs : d.store? id.table = some s) :
    d.image? id =
      if id.pageNo.toNat < d.pages id.table % pageBound then some (s.volume.image id.pageNo)
      else none := by
  rw [image?, hs, Option.bind_some, pages_eq hs]
  simp only [contains_iff (hm _ _ hs).1]

theorem Mounted.put (hm : d.Mounted) (htable : s.volume.table = table) (hdetours : s.detours = []) :
    (d.put table s).Mounted := by
  intro u s' hs'
  rw [store?_put] at hs'
  split at hs'
  case isTrue heq =>
    obtain rfl := Option.some.inj hs'
    exact ⟨htable.trans heq, hdetours⟩
  case isFalse => exact hm u s' hs'

theorem image?_put_of_ne (hne : id.table ≠ table) : (d.put table s).image? id = d.image? id := by
  rw [image?, store?_put, if_neg (Ne.symm hne), image?]

/-- The pages of a table whose store was replaced. -/
theorem image?_put (hm : (d.put table s).Mounted) (htable : id.table = table) :
    (d.put table s).image? id =
      if id.pageNo.toNat < (d.put table s).pages table % pageBound then
        some (s.volume.image id.pageNo)
      else none := by
  subst htable
  refine image?_eq hm ?_
  rw [store?_put, if_pos rfl]

theorem image?_isSome (hm : d.Mounted) :
    (d.image? id).isSome = true ↔ id.pageNo.toNat < d.pages id.table % pageBound := by
  cases hs : d.store? id.table with
  | none => simp [image?, pages, hs]
  | some s =>
    rw [image?_eq hm hs]
    split <;> simp_all

/-- A page within the file can be asked for unless the page numbers are used up. -/
theorem image?_or_full (hm : d.Mounted) (hpresent : id.pageNo.toNat < d.pages id.table) :
    (∃ img, d.image? id = some img) ∨ pageBound ≤ d.pages id.table := by
  rcases Nat.lt_or_ge (d.pages id.table) pageBound with hlt | hge
  · refine Or.inl (Option.isSome_iff_exists.mp ((image?_isSome hm).mpr ?_))
    rwa [Nat.mod_eq_of_lt hlt]
  · exact Or.inr hge

theorem lt_pages_of_image? (hm : d.Mounted) (h : d.image? id = some img) :
    id.pageNo.toNat < d.pages id.table := by
  have hlt := (image?_isSome hm).mp (Option.isSome_iff_exists.mpr ⟨img, h⟩)
  exact Nat.lt_of_lt_of_le hlt (Nat.mod_le _ _)

/-! ## Reading -/

/-- The disks have the same files and the same catalog. -/
structure SameFiles (a b : Disk) : Prop where
  file : ∀ table, (b.store? table).map Store.file = (a.store? table).map Store.file
  catalog : b.catalog = a.catalog

namespace SameFiles

theorem refl (d : Disk) : SameFiles d d := ⟨fun _ => rfl, rfl⟩

theorem trans (hab : SameFiles a b) (hbc : SameFiles b c) : SameFiles a c :=
  ⟨fun table => (hbc.file table).trans (hab.file table), hbc.catalog.trans hab.catalog⟩

/-- A store of one disk beside the store of the other one. -/
theorem store (h : SameFiles a b) (hs : b.store? table = some s) :
    ∃ s', a.store? table = some s' ∧ s.file = s'.file := by
  have hfile := h.file table
  rw [hs, Option.map_some] at hfile
  obtain ⟨s', hs', heq⟩ := Option.map_eq_some_iff.mp hfile.symm
  exact ⟨s', hs', heq.symm⟩

theorem store_none (h : SameFiles a b) (hs : b.store? table = none) : a.store? table = none := by
  have hfile := h.file table
  rw [hs, Option.map_none] at hfile
  exact Option.map_eq_none_iff.mp hfile.symm

theorem pages (h : SameFiles a b) (table : TableId) : b.pages table = a.pages table := by
  cases hs : b.store? table with
  | none => rw [Disk.pages, hs, Disk.pages, h.store_none hs]
  | some s =>
    obtain ⟨s', hs', heq⟩ := h.store hs
    rw [pages_eq hs, pages_eq hs']
    exact congrArg (fun f => f.2.1.length / pageSize) heq

theorem pageCount (h : SameFiles a b) (table : TableId) : b.pageCount table = a.pageCount table := by
  rw [pageCount_eq, pageCount_eq, h.pages]

theorem mounted (h : SameFiles a b) (hm : a.Mounted) : b.Mounted := by
  intro table s hs
  obtain ⟨s', hs', heq⟩ := h.store hs
  obtain ⟨htable, hdetours⟩ := hm table s' hs'
  exact ⟨(congrArg Prod.fst heq).trans htable, (congrArg (fun f => f.2.2) heq).trans hdetours⟩

theorem image? (h : SameFiles a b) (hm : a.Mounted) (id : PageId) : b.image? id = a.image? id := by
  cases hs : b.store? id.table with
  | none => rw [Disk.image?, hs, Disk.image?, h.store_none hs]
  | some s =>
    obtain ⟨s', hs', heq⟩ := h.store hs
    have himage : s.volume.image id.pageNo = s'.volume.image id.pageNo :=
      congrArg (fun f => f.2.1.block id.pageNo.toNat) heq
    rw [image?_eq (h.mounted hm) hs, image?_eq hm hs', h.pages, himage]

theorem put (hs : d.store? table = some s) (hfile : s'.file = s.file) :
    SameFiles d (d.put table s') := by
  refine ⟨fun u => ?_, rfl⟩
  rw [store?_put]
  split
  case isTrue h => rw [← h, hs, Option.map_some, Option.map_some, hfile]
  case isFalse => rfl

theorem update (d : Disk) (table : TableId) {f : Store → Store} (hf : ∀ s, (f s).file = s.file) :
    SameFiles d (d.update table f) := by
  rw [Disk.update]
  split
  case h_1 s hs => exact put hs (hf s)
  case h_2 => exact refl d

end SameFiles

theorem store?_of_lookup (h : d.lookup table = .ok s) :
    d.store? table = some s ∧ d.catalog.contains table = true := by
  rw [lookup] at h
  split at h
  case h_1 hcatalog hs =>
    cases h
    exact ⟨hs, hcatalog⟩
  case h_2 => cases h

theorem eq_of_read (h : s.read id = .ok (page, s')) :
    s.volume.contains id = true ∧ page = Page.clean id (s.volume.image id.pageNo) ∧
      s' = { s with volume := { s.volume with reads := s.volume.reads + 1 } } := by
  rw [Store.read] at h
  split at h
  case isTrue => cases h
  case isFalse =>
    cases hrequire : s.require id with
    | error e =>
      rw [hrequire] at h
      cases h
    | ok u =>
      simp only [hrequire, Volume.read, Volume.require] at h
      split at h
      case isFalse => cases h
      case isTrue hcontains =>
        cases h
        exact ⟨hcontains, rfl, rfl⟩

theorem file_read (h : s.read id = .ok (page, s')) : s'.file = s.file := by
  obtain ⟨-, -, rfl⟩ := eq_of_read h
  rfl

theorem read_eq_ok (hs : d.store? id.table = some s) (h : s.read id = .ok (page, s')) :
    d.image? id = some page.image ∧ page = Page.clean id page.image ∧
      s'.faults = s.faults ∧ SameFiles d (d.put id.table s') := by
  obtain ⟨hcontains, rfl, rfl⟩ := eq_of_read h
  refine ⟨?_, rfl, rfl, SameFiles.put hs rfl⟩
  rw [image?, hs, Option.bind_some, if_pos hcontains]
  rfl

/-! ## Writing -/

theorem write_eq_ok (h : s.write page = .ok s') :
    s'.volume.table = s.volume.table ∧ s'.detours = s.detours ∧
      s'.volume.medium = s.volume.medium.writeBlock page.id.pageNo.toNat page.image := by
  rw [Store.write] at h
  split at h
  · cases h
  · simp only [Volume.write] at h
    split at h
    · cases h
      exact ⟨rfl, rfl, rfl⟩
    · cases h

/-- Writing succeeds when the device works. -/
theorem write_of_writable (hs : s.volume.table = page.id.table)
    (hwritable : s.faults.unwritable = []) :
    ∃ s', s.write page = .ok s' ∧ s'.faults = s.faults := by
  have howns : s.volume.owns page.id = true := by
    rw [Volume.owns, hs]
    exact beq_self_eq_true _
  rw [Store.write, hwritable]
  simp only [Volume.write, howns, if_true]
  exact ⟨_, rfl, rfl⟩

/-- The second disk differs from the first by the content of a page that was there before. -/
structure Rewritten (a b : Disk) (id : PageId) (img : Image) : Prop where
  mounted : b.Mounted
  catalog : b.catalog = a.catalog
  pages : ∀ table, b.pages table = a.pages table
  image? : ∀ q, b.image? q = if q = id then (a.image? q).map fun _ => img else a.image? q

/-- Writing a block shortens no file. -/
theorem pages_le_put {n : Nat} (hs : d.store? table = some s)
    (hmedium : s'.volume.medium = s.volume.medium.writeBlock n img) (u : TableId) :
    d.pages u ≤ (d.put table s').pages u := by
  rw [pages_put]
  split
  case isFalse => exact Nat.le_refl _
  case isTrue heq =>
    rw [← heq, pages_eq hs, hmedium]
    exact Nat.div_le_div_right (Nat.le_max_left _ _)

/-- What a file shows after a block was written to it. -/
theorem image_written {n : Nat} (hmedium : s'.volume.medium = s.volume.medium.writeBlock n img)
    (k : UInt32) : s'.volume.image k = if n = k.toNat then img else s.volume.image k := by
  rw [Volume.image, hmedium, Medium.block_writeBlock]
  rfl

theorem rewritten_put (hm : d.Mounted) (hs : d.store? page.id.table = some s)
    (hpresent : page.id.pageNo.toNat < d.pages page.id.table) (h : s.write page = .ok s') :
    Rewritten d (d.put page.id.table s') page.id page.image := by
  obtain ⟨htable, hdetours, hmedium⟩ := write_eq_ok h
  obtain ⟨htable₀, hdetours₀⟩ := hm _ s hs
  have hmounted := hm.put (htable.trans htable₀) (hdetours.trans hdetours₀)
  have hpages : ∀ u, (d.put page.id.table s').pages u = d.pages u := by
    intro u
    rw [pages_put]
    split
    case isTrue heq =>
      rw [pages_eq hs] at hpresent
      rw [← heq, pages_eq hs, hmedium, Medium.length_writeBlock_of_lt hpresent]
    case isFalse => rfl
  refine ⟨hmounted, rfl, hpages, fun q => ?_⟩
  by_cases htables : q.table = page.id.table
  · have hsq : d.store? q.table = some s := htables ▸ hs
    rw [image?_put hmounted htables, image?_eq hm hsq, htables, hpages, image_written hmedium]
    by_cases heq : q = page.id
    · rw [if_pos heq, if_pos (congrArg (fun id => id.pageNo.toNat) heq.symm)]
      split <;> rfl
    · have hne : page.id.pageNo.toNat ≠ q.pageNo.toNat := fun hno =>
        heq (PageId.eq_of_toNat htables hno.symm)
      rw [if_neg heq, if_neg hne]
  · have hne : q ≠ page.id := fun heq => htables (congrArg PageId.table heq)
    rw [if_neg hne, image?_put_of_ne htables]

/-! ## Appending -/

/-- The second disk has grown out of the first one by a blank page. -/
structure Grown (a b : Disk) (id : PageId) : Prop where
  mounted : b.Mounted
  catalog : b.catalog = a.catalog
  pages_le : ∀ table, a.pages table ≤ b.pages table
  image? : ∀ q, b.image? q = a.image? q ∨
    q = id ∧ q.pageNo.toNat = a.pages q.table ∧ a.image? q = none ∧ b.image? q = some Image.blank ∨
    b.image? q = none ∧ pageBound ≤ b.pages q.table
  full : ∀ q, pageBound ≤ a.pages q.table → b.image? q = a.image? q
  pages_id : b.pages id.table < pageBound →
    id.pageNo.toNat = a.pages id.table ∧ b.image? id = some Image.blank

theorem append_eq (v : Volume) :
    ∃ v', v.append = .ok (⟨v.table, v.pageCount⟩, v') ∧ v'.table = v.table ∧
      v'.medium = v.medium.writeBlock v.pageCount.toNat Image.blank := by
  have howns : v.owns (Page.empty ⟨v.table, v.pageCount⟩).id = true := beq_self_eq_true _
  simp only [Volume.append, Volume.write, howns, if_true]
  exact ⟨_, rfl, rfl, rfl⟩

/-- When the page numbers are used up, an append begins again at the first page, and blanks it.  So
rows are safe only as long as page numbers are left. -/
theorem append_of_full {v : Volume} (hfull : v.medium.length / pageSize = pageBound) :
    ∃ v', v.append = .ok (⟨v.table, 0⟩, v') ∧ v'.medium.length = v.medium.length ∧
      v'.medium.block 0 = Image.blank := by
  obtain ⟨v', happend, -, hmedium⟩ := append_eq v
  have hcount : v.pageCount = 0 := by
    rw [Volume.pageCount, hfull]
    rfl
  rw [hcount] at happend hmedium
  refine ⟨v', happend, ?_, ?_⟩
  · have hpos : 0 < v.medium.length / pageSize := by
      rw [hfull]
      decide
    rw [hmedium]
    exact Medium.length_writeBlock_of_lt hpos
  · rw [hmedium, Medium.block_writeBlock]
    rfl

section Append

variable (hm : d.Mounted) (hs : d.store? table = some s) (hm' : (d.put table s').Mounted)
  (hmedium : s'.volume.medium =
    s.volume.medium.writeBlock (d.pages table % pageBound) Image.blank)

include hs hmedium

/-- At the bound the blank page falls on one that was there before. -/
theorem pages_append : (d.put table s').pages table =
    if d.pages table < pageBound then d.pages table + 1 else d.pages table := by
  rw [pages_put, if_pos rfl, hmedium]
  split
  case isTrue hlt => rw [Nat.mod_eq_of_lt hlt, pages_eq hs, Medium.pages_writeBlock_self]
  case isFalse hfull =>
    have hlt : d.pages table % pageBound < s.volume.medium.length / pageSize := by
      rw [← pages_eq hs]
      exact Nat.lt_of_lt_of_le (Nat.mod_lt _ (by decide)) (Nat.le_of_not_lt hfull)
    rw [Medium.length_writeBlock_of_lt hlt, pages_eq hs]

include hm'

/-- With the last page number the count starts again, and nothing is in reach. -/
theorem image?_append_last (hq : q.table = table) (hlast : d.pages table + 1 = pageBound) :
    (d.put table s').image? q = none := by
  have hlt : d.pages table < pageBound := Nat.lt_of_succ_le (Nat.le_of_eq hlast)
  rw [image?_put hm' hq, pages_append hs hmedium, if_pos hlt, hlast, Nat.mod_self,
    if_neg (Nat.not_lt_zero _)]

include hm

/-- A file that is full shows what it showed before. -/
theorem image?_append_full (hfull : pageBound ≤ d.pages table) :
    (d.put table s').image? q = d.image? q := by
  by_cases hq : q.table = table
  · have hsq : d.store? q.table = some s := hq ▸ hs
    rw [image?_put hm' hq, image?_eq hm hsq, hq, pages_append hs hmedium,
      if_neg (Nat.not_lt.mpr hfull)]
    split
    case isTrue hbefore => rw [image_written hmedium, if_neg (Nat.ne_of_gt hbefore)]
    case isFalse => rfl
  · exact image?_put_of_ne hq

/-- While page numbers are left the blank page stands behind the others. -/
theorem image?_append (hq : q.table = table) (hroom : d.pages table + 1 < pageBound) :
    (d.put table s').image? q =
      if q.pageNo.toNat = d.pages table then some Image.blank else d.image? q := by
  have hsq : d.store? q.table = some s := hq ▸ hs
  rw [image?_put hm' hq, image?_eq hm hsq, hq, image_written hmedium, pages_append hs hmedium,
    if_pos (Nat.lt_of_succ_lt hroom), Nat.mod_eq_of_lt hroom,
    Nat.mod_eq_of_lt (Nat.lt_of_succ_lt hroom)]
  rcases Nat.lt_trichotomy q.pageNo.toNat (d.pages table) with hbefore | heq | hbehind
  · rw [if_pos (Nat.lt_succ_of_lt hbefore), if_neg (Nat.ne_of_gt hbefore),
      if_neg (Nat.ne_of_lt hbefore), if_pos hbefore]
  · rw [heq, if_pos (Nat.lt_succ_self _), if_pos rfl, if_pos rfl]
  · rw [if_neg (Nat.not_lt.mpr hbehind), if_neg (Nat.ne_of_gt hbehind),
      if_neg (Nat.lt_asymm hbehind)]

end Append

theorem eq_of_append (h : s.append = .ok (id, s')) :
    ∃ v, s.volume.append = .ok (id, v) ∧ s' = { s with volume := v } := by
  obtain ⟨v', happend, -, -⟩ := append_eq s.volume
  rw [Store.append, happend] at h
  split at h
  case isTrue => cases h
  case isFalse =>
    obtain ⟨rfl, rfl⟩ := Prod.mk.inj (Except.ok.inj h)
    exact ⟨v', happend, rfl⟩

/-- One page is appended at most, with the number that the count of pages tells. -/
theorem grown_put (hm : d.Mounted) (hs : d.store? table = some s)
    (happend : s.append = .ok (id, s')) :
    id = ⟨table, d.pageCount table⟩ ∧ Grown d (d.put table s') id ∧
      (d.put table s').pages table ≤ d.pages table + 1 := by
  obtain ⟨v, hvolume, rfl⟩ := eq_of_append happend
  obtain ⟨v', happend', htable, hmedium⟩ := append_eq s.volume
  obtain ⟨rfl, rfl⟩ := Prod.mk.inj (Except.ok.inj (happend'.symm.trans hvolume))
  obtain ⟨hid, hnone⟩ := hm table s hs
  have hcount : s.volume.pageCount.toNat = d.pages table % pageBound := by
    rw [Volume.pageCount, UInt32.toNat_ofNat', pages_eq hs]
    rfl
  rw [hcount] at hmedium
  obtain ⟨s', hs'⟩ : ∃ s', s' = { s with volume := v' } := ⟨_, rfl⟩
  have hvolume' : s'.volume = v' := congrArg Store.volume hs'
  rw [← hvolume'] at htable hmedium
  rw [← hs']
  have hm' := hm.put (htable.trans hid) ((congrArg Store.detours hs').trans hnone)
  have hpages := pages_append hs hmedium
  have hid' : (⟨s.volume.table, s.volume.pageCount⟩ : PageId) = ⟨table, d.pageCount table⟩ := by
    rw [pageCount, hs, hid]
  refine ⟨hid', ⟨hm', rfl, fun u => ?_, fun q => ?_, fun q hfull => ?_, fun hlt => ?_⟩, ?_⟩
  · by_cases hu : u = table
    · subst hu
      rw [hpages]
      split <;> omega
    · exact Nat.le_of_eq (by rw [pages_put, if_neg (Ne.symm hu)])
  · by_cases hq : q.table = table
    case neg => exact Or.inl (image?_put_of_ne hq)
    rcases Nat.lt_trichotomy (d.pages table + 1) pageBound with hroom | hlast | hfull
    · by_cases hno : q.pageNo.toNat = d.pages table
      · have hbehind : d.image? q = none := by
          rw [← Option.not_isSome_iff_eq_none, image?_isSome hm, hq, hno]
          exact Nat.not_lt.mpr (Nat.mod_le _ _)
        refine Or.inr (Or.inl ⟨PageId.eq_of_toNat (hq.trans hid.symm) ?_, hq ▸ hno, hbehind, ?_⟩)
        · rw [hno, hcount, Nat.mod_eq_of_lt (Nat.lt_of_succ_lt hroom)]
        · rw [image?_append hm hs hm' hmedium hq hroom, if_pos hno]
      · exact Or.inl (by rw [image?_append hm hs hm' hmedium hq hroom, if_neg hno])
    · refine Or.inr (Or.inr ⟨image?_append_last hs hm' hmedium hq hlast, ?_⟩)
      rw [hq, hpages, if_pos (Nat.lt_of_succ_le (Nat.le_of_eq hlast))]
      exact Nat.le_of_eq hlast.symm
    · exact Or.inl (image?_append_full hm hs hm' hmedium (Nat.le_of_lt_succ hfull))
  · by_cases hq : q.table = table
    · exact image?_append_full hm hs hm' hmedium (hq ▸ hfull)
    · exact image?_put_of_ne hq
  · rw [hid, hpages] at hlt
    have hroom : d.pages table + 1 < pageBound := by
      split at hlt <;> omega
    have hno : s.volume.pageCount.toNat = d.pages table := by
      rw [hcount, Nat.mod_eq_of_lt (Nat.lt_of_succ_lt hroom)]
    refine ⟨by rw [hid]; exact hno, ?_⟩
    rw [image?_append hm hs hm' hmedium hid hroom, if_pos hno]
  · rw [hpages]
    split <;> omega

end Disk

end PagedHeap
