import PagedHeap.Proofs.Pool.Moves
import PagedHeap.Proofs.Pool.RowMap

/-!
# Pages in order

The page that is appended is blank, and every other page comes from the cache or from its file by
operations on rows.  So all pages that may ever be read are in order, and so are the baselines that
go to the log.
-/

namespace PagedHeap.Pool

open Disk

variable {upkeep : Prop} {owns : PageId → TxnId → Prop} {t : TxnId} {p p' : Pool} {id : PageId}
  {f : FrameId} {ops : List RowOp}

/-- Whatever may be read lies in order. -/
structure Tidy (p : Pool) : Prop where
  cached : ∀ id page, p.cachedPage? id = some page → page.image.Layout ∧ page.baseline.Layout
  filed : ∀ id img, p.disk.image? id = some img → img.Layout

theorem Tidy.page (h : p.Tidy) (hf : p.buffer.cached? id = some f) :
    (p.page f).image.Layout ∧ (p.page f).baseline.Layout :=
  h.cached id (p.page f) (Buffer.cachedPage?_of_cached hf)

theorem Tidy.content (h : p.Tidy) {img : Image} (hcontent : p.content? id = some img) :
    img.Layout := by
  cases hcached : p.cachedPage? id with
  | some page =>
    rw [content?_of_cached hcached] at hcontent
    obtain rfl := Option.some.inj hcontent
    exact (h.cached id page hcached).1
  | none =>
    rw [content?_of_not_cached hcached] at hcontent
    exact h.filed id img hcontent

theorem Tidy.discard (h : p.Tidy) (id : PageId) : (p.discard id).Tidy where
  cached q page hcached := h.cached q page (cachedPage?_of_discard hcached)
  filed := h.filed

theorem Revision.tidy {old new : Page} (h : Revision upkeep owns t p id old new ops)
    (hold : old.image.Layout ∧ old.baseline.Layout) : new.image.Layout ∧ new.baseline.Layout := by
  obtain ⟨himage, hbaseline⟩ := hold
  cases h with
  | mark _ =>
    rw [image_markDirty, Page.markDirty]
    split
    · exact ⟨himage, hbaseline⟩
    · exact ⟨himage, himage⟩
  | perform op img _ _ hon => exact ⟨(himage.onImage? hon).1, hbaseline⟩
  | clean _ _ _ hcleaned =>
    refine ⟨hcleaned.image ▸ himage, ?_⟩
    rcases hcleaned.baseline with hsame | hsame
    · exact hsame ▸ hbaseline
    · exact hsame ▸ himage

theorem Change.tidy (h : Change upkeep owns t p p' ops) (hp : Coherent owns p) (htidy : p.Tidy) :
    p'.Tidy := by
  cases h with
  | shuffle hdisk hcache =>
    refine ⟨fun id page hcached => ?_, fun id img himage => ?_⟩
    · rcases hcache id with hsame | ⟨-, hnone | ⟨img, himage, hnew⟩⟩
      · exact htidy.cached id page (hsame ▸ hcached)
      · rw [hnone] at hcached
        cases hcached
      · rw [hnew] at hcached
        obtain rfl := Option.some.inj hcached
        exact ⟨htidy.filed id img himage, htidy.filed id img himage⟩
    · rw [hdisk.image? hp.mounted] at himage
      exact htidy.filed id img himage
  | grow id hdisk hcache =>
    refine ⟨fun q page hcached => htidy.cached q page (hcache q ▸ hcached), fun q img himage => ?_⟩
    rcases hdisk.image? q with hsame | ⟨-, -, -, hblank⟩ | ⟨hnone, -⟩
    · exact htidy.filed q img (hsame ▸ himage)
    · rw [hblank] at himage
      obtain rfl := Option.some.inj himage
      exact Image.layout_blank.1
    · rw [hnone] at himage
      cases himage
  | write id old _ hold hdisk hcache =>
    refine ⟨fun q page hcached => htidy.cached q page (hcache q ▸ hcached), fun q img himage => ?_⟩
    rw [hdisk.image?] at himage
    split at himage
    case isFalse => exact htidy.filed q img himage
    case isTrue =>
      obtain ⟨_, -, rfl⟩ := Option.map_eq_some_iff.mp himage
      exact (htidy.cached id old hold).1
  | revise id old new ops hold hrevision hdisk hcache =>
    refine ⟨fun q page hcached => ?_, fun q img himage => htidy.filed q img (hdisk ▸ himage)⟩
    rw [hcache] at hcached
    split at hcached
    case isFalse => exact htidy.cached q page hcached
    case isTrue =>
      obtain rfl := Option.some.inj hcached
      exact hrevision.tidy (htidy.cached id old hold)

theorem Moves.tidy (h : Moves upkeep owns t p ops p') (hp : Coherent owns p) (htidy : p.Tidy) :
    p'.Tidy := by
  induction h with
  | refl => exact htidy
  | tail hmoves hmove ih => exact hmove.change.tidy (hmoves.coherent hp) ih

theorem Ending.tidy (h : Ending owns t p p') (hp : Coherent owns p) (htidy : p.Tidy) : p'.Tidy := by
  induction h with
  | refl => exact htidy
  | move hending hmove ih => exact hmove.change.tidy (hending.coherent hp) ih
  | drop id _ _ ih => exact ih.discard id

end PagedHeap.Pool
