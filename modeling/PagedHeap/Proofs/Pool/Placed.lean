import PagedHeap.Proofs.Pool.Balance
import PagedHeap.Proofs.Pool.Deeds

/-!
# Stores under their tables

A store may have business of its own, and its files are none the worse for it.  What is known of
disks whose stores have none carries over, for a disk shows no more than the contents of its files.
-/

namespace PagedHeap

/-- What a store shows of its pages. -/
def Store.content (s : Store) : TableId × Medium :=
  (s.volume.table, s.volume.medium)

namespace Disk

variable {a b c d : Disk} {s s' : Store} {table : TableId} {id q : PageId} {img : Image}
  {page : Page}

/-- Every store is kept under its own table. -/
def Placed (d : Disk) : Prop :=
  ∀ table s, d.store? table = some s → s.volume.table = table

/-- The disks have the same files. -/
def SameContents (a b : Disk) : Prop :=
  ∀ table, (b.store? table).map Store.content = (a.store? table).map Store.content

theorem image?_eq_content (d : Disk) (id : PageId) :
    d.image? id = ((d.store? id.table).map Store.content).bind fun content =>
      if (Volume.mount content.1 content.2).contains id then
        some ((Volume.mount content.1 content.2).image id.pageNo) else none := by
  rw [image?]
  cases d.store? id.table with
  | none => rfl
  | some s => rfl

theorem pages_eq_content (d : Disk) (table : TableId) :
    d.pages table = (((d.store? table).map Store.content).map fun content =>
      content.2.length / pageSize).getD 0 := by
  rw [pages]
  cases d.store? table with
  | none => rfl
  | some s => rfl

namespace SameContents

theorem refl (d : Disk) : SameContents d d := fun _ => rfl

theorem image? (h : SameContents a b) (id : PageId) : b.image? id = a.image? id := by
  rw [image?_eq_content, image?_eq_content, h]

theorem pages (h : SameContents a b) (table : TableId) : b.pages table = a.pages table := by
  rw [pages_eq_content, pages_eq_content, h]

theorem placed (h : SameContents a b) (ha : a.Placed) : b.Placed := by
  intro table s hs
  have hcontent := h table
  rw [hs, Option.map_some] at hcontent
  obtain ⟨s', hs', heq⟩ := Option.map_eq_some_iff.mp hcontent.symm
  exact (congrArg Prod.fst heq).symm.trans (ha table s' hs')

theorem put (h : SameContents a b) (table : TableId) (hs : s'.content = s.content) :
    SameContents (a.put table s) (b.put table s') := by
  intro u
  rw [store?_put, store?_put]
  split
  case isTrue => rw [Option.map_some, Option.map_some, hs]
  case isFalse => exact h u

theorem addTable (h : SameContents a b) (table : TableId) :
    SameContents (a.addTable table) (b.addTable table) := by
  intro u
  rw [store?_addTable, store?_addTable]
  split
  case isFalse => exact h u
  case isTrue =>
    have hcontent := h u
    cases hb : b.store? u with
    | none =>
      rw [hb] at hcontent
      rw [Option.map_eq_none_iff.mp hcontent.symm]
    | some s =>
      rw [hb] at hcontent
      obtain ⟨s', hs', heq⟩ := Option.map_eq_some_iff.mp hcontent.symm
      rw [hs', Option.getD_some, Option.getD_some, Option.map_some, Option.map_some, heq]

end SameContents

theorem SameFiles.sameContents (h : SameFiles a b) : SameContents a b := by
  intro table
  cases hs : b.store? table with
  | none => rw [h.store_none hs]
  | some s =>
    obtain ⟨s', hs', hfile⟩ := h.store hs
    rw [hs', Option.map_some, Option.map_some]
    exact congrArg (fun file => some (file.1, file.2.1)) hfile

/-- Replacing a store by one with the same file. -/
theorem sameContents_update (d : Disk) (table : TableId) {f : Store → Store}
    (hf : ∀ s, (f s).content = s.content) : SameContents d (d.update table f) := by
  rw [Disk.update]
  split
  case h_2 => exact .refl d
  case h_1 s hs =>
    intro u
    rw [store?_put]
    split
    case isTrue heq => rw [← heq, hs, Option.map_some, Option.map_some, hf]
    case isFalse => rfl

/-! ## Stores without business -/

/-- The disk with stores that have no business of their own. -/
def plain (d : Disk) : Disk :=
  { d with stores := d.stores.filterMap fun _ s => some { s with detours := [] } }

theorem store?_plain (d : Disk) (table : TableId) :
    d.plain.store? table = (d.store? table).map fun s => { s with detours := [] } := by
  rw [plain, store?, SortedMap.get?_filterMap, store?, Option.map_eq_bind]
  rfl

theorem store?_plain_of_store? (hs : d.store? table = some s) :
    d.plain.store? table = some { s with detours := [] } := by
  rw [store?_plain, hs, Option.map_some]

theorem sameContents_plain (d : Disk) : SameContents d d.plain := by
  intro table
  rw [store?_plain, Option.map_map]
  rfl

theorem Placed.mounted_plain (h : d.Placed) : d.plain.Mounted := by
  intro table s hs
  rw [store?_plain] at hs
  obtain ⟨s', hs', rfl⟩ := Option.map_eq_some_iff.mp hs
  exact ⟨h table s' hs', rfl⟩

theorem Mounted.placed (h : d.Mounted) : d.Placed :=
  fun table s hs => (h table s hs).1

theorem Placed.put (h : d.Placed) (hs : s.volume.table = table) : (d.put table s).Placed := by
  intro u s' hs'
  rw [store?_put] at hs'
  split at hs'
  case isTrue heq =>
    obtain rfl := Option.some.inj hs'
    exact hs.trans heq
  case isFalse => exact h u s' hs'

/-! ## What becomes of the pages -/

/-- No page that could be asked for is lost or changed, as long as page numbers are left. -/
structure Keeps (a b : Disk) : Prop where
  pages_le : ∀ table, a.pages table ≤ b.pages table
  placed : a.Placed → b.Placed
  image? : a.Placed → b.Roomy → ∀ q img, a.image? q = some img → b.image? q = some img

theorem SameContents.keeps (h : SameContents a b) : a.Keeps b where
  pages_le table := Nat.le_of_eq (h.pages table).symm
  placed := h.placed
  image? _ _ q _ himage := (h.image? q).trans himage

theorem keeps_addTable (d : Disk) (table : TableId) : d.Keeps (d.addTable table) := by
  have hsame := (sameContents_plain d).addTable table
  refine ⟨fun u => ?_, fun hd u s hs => ?_, fun hd _ q img himage => ?_⟩
  · rw [pages, pages, store?_addTable]
    by_cases htable : table = u
    · rw [if_pos htable]
      cases d.store? u with
      | none => exact Nat.zero_le _
      | some s => exact Nat.le_refl _
    · exact Nat.le_of_eq (by rw [if_neg htable])
  · rcases store?_of_addTable hs with hs | ⟨rfl, rfl⟩
    · exact hd u s hs
    · rfl
  · obtain ⟨-, hshown, -⟩ := alike_addTable d.plain table hd.mounted_plain
    rw [← hsame.image?, hshown, (sameContents_plain d).image?, himage]

/-- A blank page is appended at most where there was none. -/
theorem keeps_append (hs : d.store? table = some s) (happend : s.append = .ok (id, s')) :
    d.Keeps (d.put table s') := by
  obtain ⟨v, hvolume, rfl⟩ := eq_of_append happend
  obtain ⟨v', hvolume', htable, hmedium⟩ := append_eq s.volume
  obtain ⟨rfl, rfl⟩ := Prod.mk.inj (Except.ok.inj (hvolume'.symm.trans hvolume))
  refine ⟨fun u => pages_le_put hs hmedium u, fun hd => hd.put (htable.trans (hd table s hs)),
    fun hd hroom q img himage => ?_⟩
  have hplain : Store.append { s with detours := [] } =
      .ok (⟨s.volume.table, s.volume.pageCount⟩, { s with volume := v', detours := [] }) := by
    rw [Store.append] at happend ⊢
    split at happend
    case isTrue => cases happend
    case isFalse hworks =>
      rw [if_neg hworks, hvolume']
      rfl
  obtain ⟨-, hgrown, -⟩ := grown_put hd.mounted_plain (store?_plain_of_store? hs) hplain
  have hsame : SameContents (d.put table { s with volume := v' })
      (d.plain.put table { s with volume := v', detours := [] }) :=
    (sameContents_plain d).put table rfl
  rw [← (sameContents_plain d).image?] at himage
  rw [← hsame.image?]
  rcases hgrown.image? q with hkept | ⟨-, -, hnone, -⟩ | ⟨-, hfull⟩
  · exact hkept.trans himage
  · cases hnone.symm.trans himage
  · rw [hsame.pages] at hfull
    exact absurd (hroom q.table) (Nat.not_lt.mpr hfull)

/-- A page that could be asked for is written, and no other one changes. -/
structure Rewrites (a b : Disk) (id : PageId) (img : Image) : Prop where
  pages_le : ∀ table, a.pages table ≤ b.pages table
  placed : a.Placed → b.Placed
  image? : a.Placed → ∀ old, a.image? id = some old →
    ∀ q, b.image? q = if q = id then some img else a.image? q

theorem rewrites_put (hs : d.store? page.id.table = some s) (h : s.write page = .ok s') :
    d.Rewrites (d.put page.id.table s') page.id page.image := by
  obtain ⟨htable, -, hmedium⟩ := write_eq_ok h
  refine ⟨fun u => pages_le_put hs hmedium u, fun hd => hd.put (htable.trans (hd _ s hs)),
    fun hd old hold q => ?_⟩
  have hplain : Store.write { s with detours := [] } page = .ok { s' with detours := [] } := by
    rw [Store.write] at h ⊢
    split at h
    · cases h
    · rename_i hwritable
      rw [if_neg hwritable]
      simp only [Volume.write] at h ⊢
      split at h
      · rename_i howns
        cases h
        rw [if_pos howns]
        rfl
      · cases h
  rw [← (sameContents_plain d).image?] at hold
  have hrewritten := rewritten_put hd.mounted_plain (store?_plain_of_store? hs)
    (lt_pages_of_image? hd.mounted_plain hold) hplain
  have hsame : SameContents (d.put page.id.table s')
      (d.plain.put page.id.table { s' with detours := [] }) :=
    (sameContents_plain d).put _ rfl
  rw [← hsame.image?, hrewritten.image?]
  split
  case isTrue heq => rw [heq, hold, Option.map_some]
  case isFalse => exact (sameContents_plain d).image? q

end Disk

end PagedHeap
