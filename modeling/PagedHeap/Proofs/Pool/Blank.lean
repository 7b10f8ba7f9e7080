import PagedHeap.Proofs.Pool.Tidy

/-!
# Blank pages

The pages that a table gets are blank, and stay so until somebody puts a row there.  So whatever
lies behind the pages that the table had at some time is blank as long as nobody puts rows there.
-/

namespace PagedHeap

/-- The page is one of the table, and has this number or a greater one. -/
structure PageId.Behind (id : PageId) (table : TableId) (n : Nat) : Prop where
  table : id.table = table
  le : n ≤ id.pageNo.toNat

/-- No row is put into the table. -/
def NoPuts (table : TableId) (ops : List RowOp) : Prop :=
  ∀ rid row, .put rid row ∈ ops → rid.page.table ≠ table

/-- There is nothing to be removed from a blank page. -/
theorem RowOp.onImage?_remove_blank (rid : RecordId) :
    (remove rid).onImage? Image.blank = none := by
  cases himage : (remove rid).onImage? Image.blank with
  | none => rfl
  | some img =>
    obtain ⟨-, ⟨row, hrow⟩, -⟩ := Image.layout_blank.1.onImage?_remove himage
    rw [Image.cell_blank] at hrow
    cases hrow

namespace Pool

open Disk

/-- Nothing has been put into the pages of the table from this number on. -/
structure BlankFrom (p : Pool) (table : TableId) (n : Nat) : Prop where
  cached : ∀ id page, p.cachedPage? id = some page → id.Behind table n → page.image = Image.blank
  filed : ∀ id img, p.disk.image? id = some img → id.Behind table n → img = Image.blank

variable {upkeep : Prop} {owns : PageId → TxnId → Prop} {t : TxnId} {p p' : Pool}
  {id : PageId} {table : TableId} {n : Nat} {ops ops' : List RowOp}

theorem noPuts_append : NoPuts table (ops ++ ops') ↔ NoPuts table ops ∧ NoPuts table ops' := by
  constructor
  · intro h
    exact ⟨fun rid row hmem => h rid row (List.mem_append_left _ hmem),
      fun rid row hmem => h rid row (List.mem_append_right _ hmem)⟩
  · rintro ⟨h, h'⟩ rid row hmem
    exact (List.mem_append.mp hmem).elim (h rid row) (h' rid row)

/-- A table has no pages behind its last one. -/
theorem Coherent.blankFrom_pages (hp : Coherent owns p) (table : TableId) :
    p.BlankFrom table (p.disk.pages table) where
  cached id page hcached hbehind := by
    have hlt := hp.present id page hcached
    rw [hbehind.table] at hlt
    exact absurd hbehind.le (Nat.not_le_of_lt hlt)
  filed id img himage hbehind := by
    have hlt := lt_pages_of_image? hp.mounted himage
    rw [hbehind.table] at hlt
    exact absurd hbehind.le (Nat.not_le_of_lt hlt)

namespace BlankFrom

theorem content (h : p.BlankFrom table n) (hbehind : id.Behind table n) {img : Image}
    (hcontent : p.content? id = some img) : img = Image.blank := by
  cases hcached : p.cachedPage? id with
  | some page =>
    rw [content?_of_cached hcached] at hcontent
    exact (Option.some.inj hcontent).symm.trans (h.cached id page hcached hbehind)
  | none =>
    rw [content?_of_not_cached hcached] at hcontent
    exact h.filed id img hcontent hbehind

theorem discard (h : p.BlankFrom table n) (id : PageId) : (p.discard id).BlankFrom table n where
  cached q page hcached := h.cached q page (cachedPage?_of_discard hcached)
  filed := h.filed

end BlankFrom

/-- A blank page stays blank, unless a row is put there. -/
theorem Revision.blank {old new : Page} (h : Revision upkeep owns t p id old new ops)
    (htable : id.table = table) (hnone : NoPuts table ops) (hold : old.image = Image.blank) :
    new.image = Image.blank := by
  cases h with
  | mark => rw [image_markDirty, hold]
  | clean new _ _ hcleaned => rw [hcleaned.image, hold]
  | perform op img _ hpage himage =>
    cases op with
    | put rid row =>
      refine absurd ?_ (hnone rid row (List.mem_singleton.mpr rfl))
      exact hpage ▸ htable
    | remove rid =>
      rw [hold, RowOp.onImage?_remove_blank] at himage
      cases himage

theorem Change.blankFrom (h : Change upkeep owns t p p' ops) (hp : Coherent owns p)
    (hnone : NoPuts table ops) (hblank : p.BlankFrom table n) : p'.BlankFrom table n := by
  cases h with
  | shuffle hdisk hcache =>
    refine ⟨fun id page hcached hbehind => ?_, fun id img himage hbehind => ?_⟩
    · rcases hcache id with hsame | ⟨-, hgone | ⟨img, himage, hnew⟩⟩
      · exact hblank.cached id page (hsame ▸ hcached) hbehind
      · rw [hgone] at hcached
        cases hcached
      · rw [hnew] at hcached
        obtain rfl := Option.some.inj hcached
        exact hblank.filed id img himage hbehind
    · rw [hdisk.image? hp.mounted] at himage
      exact hblank.filed id img himage hbehind
  | grow id hdisk hcache =>
    refine ⟨fun q page hcached => hblank.cached q page (hcache q ▸ hcached),
      fun q img himage hbehind => ?_⟩
    rcases hdisk.image? q with hsame | ⟨-, -, -, hnew⟩ | ⟨hgone, -⟩
    · exact hblank.filed q img (hsame ▸ himage) hbehind
    · exact Option.some.inj (himage.symm.trans hnew)
    · rw [hgone] at himage
      cases himage
  | write id old _ hold hdisk hcache =>
    refine ⟨fun q page hcached => hblank.cached q page (hcache q ▸ hcached),
      fun q img himage hbehind => ?_⟩
    rw [hdisk.image?] at himage
    split at himage
    case isFalse => exact hblank.filed q img himage hbehind
    case isTrue heq =>
      obtain ⟨_, -, rfl⟩ := Option.map_eq_some_iff.mp himage
      exact hblank.cached id old hold (heq ▸ hbehind)
  | revise id old new ops hold hrevision hdisk hcache =>
    refine ⟨fun q page hcached hbehind => ?_,
      fun q img himage => hblank.filed q img (hdisk ▸ himage)⟩
    rw [hcache] at hcached
    split at hcached
    case isFalse => exact hblank.cached q page hcached hbehind
    case isTrue heq =>
      subst heq
      obtain rfl := Option.some.inj hcached
      exact hrevision.blank hbehind.table hnone (hblank.cached q old hold hbehind)

theorem Moves.blankFrom (h : Moves upkeep owns t p ops p') (hp : Coherent owns p)
    (hnone : NoPuts table ops) (hblank : p.BlankFrom table n) : p'.BlankFrom table n := by
  induction h with
  | refl => exact hblank
  | tail hmoves hmove ih =>
    obtain ⟨hnone₁, hnone₂⟩ := noPuts_append.mp hnone
    exact hmove.change.blankFrom (hmoves.coherent hp) hnone₂ (ih hnone₁)

theorem Ending.blankFrom (h : Ending owns t p p') (hp : Coherent owns p)
    (hblank : p.BlankFrom table n) : p'.BlankFrom table n := by
  induction h with
  | refl => exact hblank
  | move hending hmove ih =>
    exact hmove.change.blankFrom (hending.coherent hp)
      (fun _ _ hmem => absurd hmem List.not_mem_nil) ih
  | drop id _ _ ih => exact ih.discard id

end Pool

end PagedHeap
