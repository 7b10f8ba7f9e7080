import PagedHeap.Proofs.Disk.Files
import PagedHeap.Proofs.Pool.Cache
import PagedHeap.Proofs.Pool.RowOp

/-!
# Moves of a pool

Whatever a call does to the pool it does in moves of a few kinds, and what must stay true is checked
against each kind once.  A move is described by what it changes in the cached pages and in the
files.  One parameter says who has which page for itself, another one whether there is upkeep:
whether pages may be written back, and the log and the devices set to fail.
-/

namespace PagedHeap.Pool

open Disk

variable {upkeep : Prop} {owns : PageId → TxnId → Prop} {t s : TxnId} {p p' p'' : Pool}
  {id q : PageId} {page : Page} {img : Image} {op : RowOp} {ops ops' : List RowOp}

def cachedPage? (p : Pool) (id : PageId) : Option Page :=
  p.buffer.cachedPage? id

/-- What a transaction that can have the page would be shown. -/
def content? (p : Pool) (id : PageId) : Option Image :=
  match p.cachedPage? id with
  | some page => some page.image
  | none => p.disk.image? id

/-- Who has dirtied the cached page, if anybody. -/
def dirtier? (p : Pool) (id : PageId) : Option TxnId :=
  (p.cachedPage? id).bind Page.dirtier

/-- The page is out of reach for good: its file has used up the page numbers. -/
def Gone (p : Pool) (id : PageId) : Prop :=
  p.cachedPage? id = none ∧ p.disk.image? id = none ∧ pageBound ≤ p.disk.pages id.table

def Shows (p : Pool) (id : PageId) (img : Image) : Prop :=
  p.content? id = some img ∨ p.Gone id

/-- Nobody's changes would be lost if the page left the cache. -/
def Rests (p : Pool) (id : PageId) : Prop :=
  ∀ page, p.cachedPage? id = some page → page.dirtier = none

/-- The log refuses nothing, and every file can be found and written. -/
structure Steady (p : Pool) : Prop where
  logging : ∀ n duty, p.journal.verdicts n duty = none
  writable : ∀ table s, p.disk.store? table = some s →
    p.disk.catalog.contains table = true ∧ s.faults.unwritable = []

structure Coherent (owns : PageId → TxnId → Prop) (p : Pool) : Prop where
  mounted : p.disk.Mounted
  framed : p.buffer.Framed
  present : ∀ id page, p.cachedPage? id = some page → id.pageNo.toNat < p.disk.pages id.table
  /-- Only the one who has a page for itself has it dirty. -/
  owned : ∀ id page t, p.cachedPage? id = some page → page.dirtier = some t → owns id t
  /-- A clean page is what its file holds. -/
  faithful : ∀ id page img, p.cachedPage? id = some page → page.dirtier = none →
    p.disk.image? id = some img → page.image = img

theorem content?_of_cached (h : p.cachedPage? id = some page) :
    p.content? id = some page.image := by
  rw [content?, h]

theorem content?_of_not_cached (h : p.cachedPage? id = none) :
    p.content? id = p.disk.image? id := by
  rw [content?, h]

theorem Coherent.mono {owns' : PageId → TxnId → Prop} (hp : Coherent owns p)
    (h : ∀ id t, owns id t → owns' id t) : Coherent owns' p where
  mounted := hp.mounted
  framed := hp.framed
  present := hp.present
  owned id page t hcached hdirty := h id t (hp.owned id page t hcached hdirty)
  faithful := hp.faithful

/-- A page at rest is what its file holds, unless it cannot be read again. -/
theorem Coherent.shows_of_rests (hp : Coherent owns p) (hrests : p.Rests id)
    (hshows : p.content? id = some img) :
    p.disk.image? id = some img ∨ p.disk.image? id = none ∧ pageBound ≤ p.disk.pages id.table := by
  cases hcached : p.cachedPage? id with
  | none =>
    rw [content?_of_not_cached hcached] at hshows
    exact Or.inl hshows
  | some page =>
    rw [content?_of_cached hcached] at hshows
    cases himage : p.disk.image? id with
    | some img' =>
      rw [← hp.faithful id page img' hcached (hrests page hcached) himage]
      exact Or.inl hshows
    | none =>
      rcases image?_or_full hp.mounted (hp.present id page hcached) with ⟨img', himage'⟩ | hfull
      · rw [himage] at himage'
        cases himage'
      · exact Or.inr ⟨rfl, hfull⟩

/-- A page at rest may leave the cache, or come in, and still shows what it showed. -/
theorem Coherent.shows_of_shuffled (hp : Coherent owns p) (hrests : p.Rests q)
    (hshows : p.content? q = some img) (himages : p'.disk.image? q = p.disk.image? q)
    (hpages : p'.disk.pages q.table = p.disk.pages q.table)
    (hchanged : p'.cachedPage? q = none ∨
      ∃ img, p.disk.image? q = some img ∧ p'.cachedPage? q = some (Page.clean q img)) :
    p'.Shows q img := by
  rcases hp.shows_of_rests hrests hshows with himage | ⟨hnone, hfull⟩
  · apply Or.inl
    rcases hchanged with hnone | ⟨img', himage', hnew⟩
    · rw [content?_of_not_cached hnone, himages, himage]
    · rw [content?_of_cached hnew]
      exact himage'.symm.trans himage
  · rcases hchanged with hnone' | ⟨img', himage', -⟩
    · exact Or.inr ⟨hnone', himages.trans hnone, by rwa [hpages]⟩
    · rw [hnone] at himage'
      cases himage'

/-- While the cache stays as it is, a file matters for the pages only that are not cached. -/
theorem shows_of_same_cache (hcache : p'.cachedPage? q = p.cachedPage? q)
    (hshows : p.content? q = some img)
    (hfile : p.cachedPage? q = none → p.disk.image? q = some img →
      p'.disk.image? q = some img ∨
        p'.disk.image? q = none ∧ pageBound ≤ p'.disk.pages q.table) : p'.Shows q img := by
  cases hcached : p.cachedPage? q with
  | some page =>
    rw [content?_of_cached hcached] at hshows
    exact Or.inl ((content?_of_cached (hcache.trans hcached)).trans hshows)
  | none =>
    rw [content?_of_not_cached hcached] at hshows
    have hcached' := hcache.trans hcached
    rcases hfile hcached hshows with himage | hgone
    · exact Or.inl ((content?_of_not_cached hcached').trans himage)
    · exact Or.inr ⟨hcached', hgone⟩

/-! ## The kinds of moves -/

/-- A page without its dirtier; its baseline may have followed. -/
structure Cleaned (old new : Page) : Prop where
  id : new.id = old.id
  image : new.image = old.image
  dirtier : new.dirtier = none
  baseline : new.baseline = old.baseline ∨ new.baseline = old.image

/-- How a cached page may become another one in its place. -/
inductive Revision (upkeep : Prop) (owns : PageId → TxnId → Prop) (t : TxnId) (p : Pool)
    (id : PageId) (old : Page) : Page → List RowOp → Prop
  | mark (howns : owns id t) : Revision upkeep owns t p id old (old.markDirty t) []
  | perform (op : RowOp) (img : Image) (hdirty : old.dirtier = some t) (hop : op.rid.page = id)
      (himage : op.onImage? old.image = some img) :
      Revision upkeep owns t p id old (old.withImage img) [op]
  | clean (new : Page) (hupkeep : upkeep)
      (hwritten : ∀ img, p.disk.image? id = some img → old.image = img)
      (hcleaned : Cleaned old new) : Revision upkeep owns t p id old new []

inductive Change (upkeep : Prop) (owns : PageId → TxnId → Prop) (t : TxnId) (p p' : Pool) :
    List RowOp → Prop
  /-- Pages at rest leave the cache or come in. -/
  | shuffle (hdisk : SameFiles p.disk p'.disk)
      (hcache : ∀ q, p'.cachedPage? q = p.cachedPage? q ∨
        p.Rests q ∧ (p'.cachedPage? q = none ∨
          ∃ img, p.disk.image? q = some img ∧ p'.cachedPage? q = some (Page.clean q img))) :
      Change upkeep owns t p p' []
  | grow (id : PageId) (hdisk : Grown p.disk p'.disk id)
      (hcache : ∀ q, p'.cachedPage? q = p.cachedPage? q) : Change upkeep owns t p p' []
  | write (id : PageId) (page : Page) (hupkeep : upkeep) (hcached : p.cachedPage? id = some page)
      (hdisk : Rewritten p.disk p'.disk id page.image)
      (hcache : ∀ q, p'.cachedPage? q = p.cachedPage? q) : Change upkeep owns t p p' []
  | revise (id : PageId) (old new : Page) (ops : List RowOp) (hcached : p.cachedPage? id = some old)
      (hrevision : Revision upkeep owns t p id old new ops) (hdisk : p'.disk = p.disk)
      (hcache : ∀ q, p'.cachedPage? q = if q = id then some new else p.cachedPage? q) :
      Change upkeep owns t p p' ops

theorem Revision.mono {upkeep' : Prop} {owns' : PageId → TxnId → Prop} {old new : Page}
    (h : Revision upkeep owns t p id old new ops) (hupkeep : upkeep → upkeep')
    (howns : ∀ id t, owns id t → owns' id t) : Revision upkeep' owns' t p id old new ops := by
  cases h with
  | mark hmine => exact .mark (howns _ _ hmine)
  | perform op img hdirty hop himage => exact .perform op img hdirty hop himage
  | clean _ hallowed hwritten hcleaned => exact .clean _ (hupkeep hallowed) hwritten hcleaned

theorem Change.mono {upkeep' : Prop} {owns' : PageId → TxnId → Prop}
    (h : Change upkeep owns t p p' ops) (hupkeep : upkeep → upkeep')
    (howns : ∀ id t, owns id t → owns' id t) : Change upkeep' owns' t p p' ops := by
  cases h with
  | shuffle hdisk hcache => exact .shuffle hdisk hcache
  | grow id hdisk hcache => exact .grow id hdisk hcache
  | write id page hallowed hcached hdisk hcache =>
    exact .write id page (hupkeep hallowed) hcached hdisk hcache
  | revise id old new _ hcached hrevision hdisk hcache =>
    exact .revise id old new _ hcached (hrevision.mono hupkeep howns) hdisk hcache

@[simp] theorem dirtier_markDirty (page : Page) (t : TxnId) :
    (page.markDirty t).dirtier = some t := rfl

@[simp] theorem image_markDirty (page : Page) (t : TxnId) :
    (page.markDirty t).image = page.image := by
  rw [Page.markDirty]
  split <;> rfl

@[simp] theorem id_markDirty (page : Page) (t : TxnId) : (page.markDirty t).id = page.id := by
  rw [Page.markDirty]
  split <;> rfl

namespace Revision

variable {old new : Page}

/-- The operations are made on the page, by the one who has it dirty. -/
theorem of_mem (h : Revision upkeep owns t p id old new ops) (hop : op ∈ ops) :
    op.rid.page = id ∧ old.dirtier = some t := by
  cases h with
  | mark _ => cases hop
  | clean _ _ _ _ => cases hop
  | perform op' img hdirty hpage _ =>
    obtain rfl := List.mem_singleton.mp hop
    exact ⟨hpage, hdirty⟩

theorem replay (h : Revision upkeep owns t p id old new ops) :
    RowOp.replay? id ops old.image = some new.image := by
  cases h with
  | mark _ =>
    rw [image_markDirty]
    rfl
  | clean _ _ _ hcleaned =>
    rw [hcleaned.image]
    rfl
  | perform op img _ hpage himage => exact (RowOp.replay?_singleton hpage).trans himage

/-- Whoever has the new page dirty marked it, or had the old one dirty. -/
theorem owned (h : Revision upkeep owns t p id old new ops)
    (hold : ∀ s, old.dirtier = some s → owns id s) (hdirty : new.dirtier = some s) : owns id s := by
  cases h with
  | mark howns =>
    rw [dirtier_markDirty] at hdirty
    exact Option.some.inj hdirty ▸ howns
  | perform op img _ _ _ => exact hold s hdirty
  | clean _ _ _ hcleaned =>
    rw [hcleaned.dirtier] at hdirty
    cases hdirty

/-- A page that was made clean had been written. -/
theorem faithful (h : Revision upkeep owns t p id old new ops) (hclean : new.dirtier = none)
    (himage : p.disk.image? id = some img) : new.image = img := by
  cases h with
  | mark _ =>
    rw [dirtier_markDirty] at hclean
    cases hclean
  | perform op img' hdirty _ _ =>
    have hsame : (old.withImage img').dirtier = old.dirtier := rfl
    rw [hsame, hdirty] at hclean
    cases hclean
  | clean _ _ hwritten hcleaned => exact hcleaned.image.trans (hwritten img himage)

end Revision

namespace Change

theorem mounted (h : Change upkeep owns t p p' ops) (hm : p.disk.Mounted) : p'.disk.Mounted := by
  cases h with
  | shuffle hdisk _ => exact hdisk.mounted hm
  | grow id hdisk _ => exact hdisk.mounted
  | write id page _ _ hdisk _ => exact hdisk.mounted
  | revise id old new ops _ _ hdisk _ => exact hdisk ▸ hm

theorem catalog (h : Change upkeep owns t p p' ops) : p'.disk.catalog = p.disk.catalog := by
  cases h with
  | shuffle hdisk _ => exact hdisk.catalog
  | grow id hdisk _ => exact hdisk.catalog
  | write id page _ _ hdisk _ => exact hdisk.catalog
  | revise id old new ops _ _ hdisk _ => exact congrArg Disk.catalog hdisk

theorem pages_le (h : Change upkeep owns t p p' ops) (table : TableId) :
    p.disk.pages table ≤ p'.disk.pages table := by
  cases h with
  | shuffle hdisk _ => exact Nat.le_of_eq (hdisk.pages table).symm
  | grow id hdisk _ => exact hdisk.pages_le table
  | write id page _ _ hdisk _ => exact Nat.le_of_eq (hdisk.pages table).symm
  | revise id old new ops _ _ hdisk _ => exact Nat.le_of_eq (by rw [hdisk])

/-- A cached page has not come from nowhere. -/
theorem present (h : Change upkeep owns t p p' ops) (hp : Coherent owns p)
    (hcached : p'.cachedPage? q = some page) : q.pageNo.toNat < p'.disk.pages q.table := by
  refine Nat.lt_of_lt_of_le ?_ (h.pages_le q.table)
  cases h with
  | shuffle hdisk hcache =>
    rcases hcache q with hsame | ⟨-, hnone | ⟨img, himage, -⟩⟩
    · exact hp.present q page (hsame ▸ hcached)
    · rw [hnone] at hcached
      cases hcached
    · exact lt_pages_of_image? hp.mounted himage
  | grow id hdisk hcache => exact hp.present q page (hcache q ▸ hcached)
  | write id page' _ _ hdisk hcache => exact hp.present q page (hcache q ▸ hcached)
  | revise id old new ops hold _ _ hcache =>
    rw [hcache] at hcached
    split at hcached
    case isTrue heq => exact heq ▸ hp.present id old hold
    case isFalse => exact hp.present q page hcached

theorem owned (h : Change upkeep owns t p p' ops) (hp : Coherent owns p)
    (hcached : p'.cachedPage? q = some page) (hdirty : page.dirtier = some s) : owns q s := by
  cases h with
  | shuffle hdisk hcache =>
    rcases hcache q with hsame | ⟨-, hnone | ⟨img, -, hnew⟩⟩
    · exact hp.owned q page s (hsame ▸ hcached) hdirty
    · rw [hnone] at hcached
      cases hcached
    · rw [hnew] at hcached
      cases hcached
      cases hdirty
  | grow id hdisk hcache => exact hp.owned q page s (hcache q ▸ hcached) hdirty
  | write id page' _ _ hdisk hcache => exact hp.owned q page s (hcache q ▸ hcached) hdirty
  | revise id old new ops hold hrevision _ hcache =>
    rw [hcache] at hcached
    split at hcached
    case isFalse => exact hp.owned q page s hcached hdirty
    case isTrue heq =>
      subst heq
      obtain rfl := Option.some.inj hcached
      exact hrevision.owned (fun s => hp.owned q old s hold) hdirty

theorem faithful (h : Change upkeep owns t p p' ops) (hp : Coherent owns p)
    (hcached : p'.cachedPage? q = some page) (hclean : page.dirtier = none)
    (himage : p'.disk.image? q = some img) : page.image = img := by
  cases h with
  | shuffle hdisk hcache =>
    rw [hdisk.image? hp.mounted] at himage
    rcases hcache q with hsame | ⟨-, hnone | ⟨img', himage', hnew⟩⟩
    · exact hp.faithful q page img (hsame ▸ hcached) hclean himage
    · rw [hnone] at hcached
      cases hcached
    · rw [hnew] at hcached
      cases hcached
      exact Option.some.inj (himage'.symm.trans himage)
  | grow id hdisk hcache =>
    rw [hcache] at hcached
    rcases hdisk.image? q with hsame | ⟨-, hlast, -⟩ | ⟨hnone, -⟩
    · exact hp.faithful q page img hcached hclean (hsame ▸ himage)
    · exact absurd (hp.present q page hcached) (by omega)
    · rw [hnone] at himage
      cases himage
  | write id old _ hold hdisk hcache =>
    rw [hcache] at hcached
    rw [hdisk.image?] at himage
    split at himage
    case isTrue heq =>
      obtain ⟨img', -, rfl⟩ := Option.map_eq_some_iff.mp himage
      subst heq
      exact congrArg Page.image (Option.some.inj (hcached.symm.trans hold))
    case isFalse => exact hp.faithful q page img hcached hclean himage
  | revise id old new ops hold hrevision hdisk hcache =>
    rw [hdisk] at himage
    rw [hcache] at hcached
    split at hcached
    case isFalse => exact hp.faithful q page img hcached hclean himage
    case isTrue heq =>
      subst heq
      obtain rfl := Option.some.inj hcached
      exact hrevision.faithful hclean himage

theorem coherent (h : Change upkeep owns t p p' ops) (hp : Coherent owns p)
    (hframed : p'.buffer.Framed) : Coherent owns p' where
  mounted := h.mounted hp.mounted
  framed := hframed
  present _ _ hcached := h.present hp hcached
  owned _ _ _ hcached hdirty := h.owned hp hcached hdirty
  faithful _ _ _ hcached hclean himage := h.faithful hp hcached hclean himage

theorem ne_of_cached {old : Page} (hnone : p.cachedPage? q = none)
    (hold : p.cachedPage? id = some old) : q ≠ id := by
  rintro rfl
  rw [hnone] at hold
  cases hold

/-- Operations are made on cached pages only. -/
theorem page_ne_of_not_cached (h : Change upkeep owns t p p' ops) (hnone : p.cachedPage? q = none) :
    ∀ op ∈ ops, op.rid.page ≠ q := by
  intro op hop
  cases h with
  | shuffle _ _ => cases hop
  | grow _ _ _ => cases hop
  | write _ _ _ _ _ => cases hop
  | revise id old new ops hold hrevision _ _ =>
    rw [(hrevision.of_mem hop).1]
    exact Ne.symm (ne_of_cached hnone hold)

/-- A page out of reach stays so. -/
theorem gone (h : Change upkeep owns t p p' ops) (hp : Coherent owns p) (hgone : p.Gone q) :
    p'.Gone q := by
  obtain ⟨hnone, himage, hfull⟩ := hgone
  have hfull' := Nat.le_trans hfull (h.pages_le q.table)
  cases h with
  | shuffle hdisk hcache =>
    refine ⟨?_, by rw [hdisk.image? hp.mounted, himage], hfull'⟩
    rcases hcache q with hsame | ⟨-, hnone | ⟨img, himage', -⟩⟩
    · rw [hsame, hnone]
    · exact hnone
    · rw [himage] at himage'
      cases himage'
  | grow id hdisk hcache =>
    exact ⟨by rw [hcache, hnone], by rw [hdisk.full q hfull, himage], hfull'⟩
  | write id old _ hold hdisk hcache =>
    refine ⟨by rw [hcache, hnone], ?_, hfull'⟩
    rw [hdisk.image?, if_neg (ne_of_cached hnone hold), himage]
  | revise id old new ops hold _ hdisk hcache =>
    exact ⟨by rw [hcache, if_neg (ne_of_cached hnone hold), hnone], by rw [hdisk, himage], hfull'⟩

/-- A page shows afterwards what the operations make of what it showed before. -/
theorem shows (h : Change upkeep owns t p p' ops) (hp : Coherent owns p) (hshows : p.Shows q img) :
    ∃ img', RowOp.replay? q ops img = some img' ∧ p'.Shows q img' := by
  rcases hshows with hshows | hgone
  case inr =>
    have hne := h.page_ne_of_not_cached hgone.1
    exact ⟨img, RowOp.replay?_of_forall_ne hne, Or.inr (h.gone hp hgone)⟩
  cases h with
  | shuffle hdisk hcache =>
    refine ⟨img, rfl, ?_⟩
    have himages := hdisk.image? hp.mounted q
    rcases hcache q with hsame | ⟨hrests, hchanged⟩
    · apply Or.inl
      rwa [content?, hsame, himages]
    · exact hp.shows_of_shuffled hrests hshows himages (hdisk.pages q.table) hchanged
  | grow id hdisk hcache =>
    refine ⟨img, rfl, shows_of_same_cache (hcache q) hshows fun _ himage => ?_⟩
    rcases hdisk.image? q with hsame | ⟨-, -, hnone, -⟩ | hgone
    · exact Or.inl (hsame.trans himage)
    · rw [hnone] at himage
      cases himage
    · exact Or.inr hgone
  | write id old _ hold hdisk hcache =>
    refine ⟨img, rfl, shows_of_same_cache (hcache q) hshows fun hnone himage => Or.inl ?_⟩
    rw [hdisk.image?, if_neg (ne_of_cached hnone hold), himage]
  | revise id old new ops hold hrevision hdisk hcache =>
    by_cases hq : q = id
    case neg =>
      have hne : ∀ op ∈ ops, op.rid.page ≠ q := fun op hop heq =>
        hq (heq.symm.trans (hrevision.of_mem hop).1)
      refine ⟨img, RowOp.replay?_of_forall_ne hne, Or.inl ?_⟩
      rwa [content?, hcache, if_neg hq, hdisk]
    case pos =>
      subst hq
      rw [content?_of_cached hold] at hshows
      obtain rfl := Option.some.inj hshows
      have hcached : p'.cachedPage? q = some new := (hcache q).trans (if_pos rfl)
      exact ⟨new.image, hrevision.replay, Or.inl (content?_of_cached hcached)⟩

end Change

/-! ## Moves one after the other -/

structure Move (upkeep : Prop) (owns : PageId → TxnId → Prop) (t : TxnId) (p p' : Pool)
    (ops : List RowOp) : Prop where
  framed : p'.buffer.Framed
  change : Change upkeep owns t p p' ops
  steady : upkeep ∨ (p.Steady → p'.Steady)

/-- What a call of a transaction does, with the operations on rows that it comes to. -/
inductive Moves (upkeep : Prop) (owns : PageId → TxnId → Prop) (t : TxnId) (p : Pool) :
    List RowOp → Pool → Prop
  | refl : Moves upkeep owns t p [] p
  | tail {p' p'' : Pool} {ops ops' : List RowOp} (h : Moves upkeep owns t p ops p')
      (hmove : Move upkeep owns t p' p'' ops') : Moves upkeep owns t p (ops ++ ops') p''

namespace Moves

theorem single (h : Move upkeep owns t p p' ops) : Moves upkeep owns t p ops p' := by
  have hmoves := Moves.refl.tail h
  rwa [List.nil_append] at hmoves

theorem trans (h : Moves upkeep owns t p ops p') (h' : Moves upkeep owns t p' ops' p'') :
    Moves upkeep owns t p (ops ++ ops') p'' := by
  induction h' with
  | refl => rwa [List.append_nil]
  | tail _ hmove ih =>
    rw [← List.append_assoc]
    exact ih.tail hmove

theorem mono {owns' : PageId → TxnId → Prop} (h : Moves upkeep owns t p ops p')
    (hle : ∀ id t, owns id t → owns' id t) : Moves upkeep owns' t p ops p' := by
  induction h with
  | refl => exact .refl
  | tail _ hmove ih => exact ih.tail ⟨hmove.framed, hmove.change.mono id hle, hmove.steady⟩

theorem permit {upkeep' : Prop} (h : Moves upkeep owns t p ops p') (hupkeep : upkeep → upkeep') :
    Moves upkeep' owns t p ops p' := by
  induction h with
  | refl => exact .refl
  | tail _ hmove ih =>
    exact ih.tail ⟨hmove.framed, hmove.change.mono hupkeep fun _ _ howns => howns,
      hmove.steady.imp_left hupkeep⟩

theorem coherent (h : Moves upkeep owns t p ops p') (hp : Coherent owns p) : Coherent owns p' := by
  induction h with
  | refl => exact hp
  | tail _ hmove ih => exact hmove.change.coherent ih hmove.framed

theorem shows (h : Moves upkeep owns t p ops p') (hp : Coherent owns p) (hshows : p.Shows q img) :
    ∃ img', RowOp.replay? q ops img = some img' ∧ p'.Shows q img' := by
  induction h with
  | refl => exact ⟨img, rfl, hshows⟩
  | tail hmoves hmove ih =>
    obtain ⟨img', hreplay, hshows'⟩ := ih
    obtain ⟨img'', hreplay', hshows''⟩ := hmove.change.shows (hmoves.coherent hp) hshows'
    refine ⟨img'', ?_, hshows''⟩
    rw [RowOp.replay?_append, hreplay]
    exact hreplay'

theorem pages_le (h : Moves upkeep owns t p ops p') (table : TableId) :
    p.disk.pages table ≤ p'.disk.pages table := by
  induction h with
  | refl => exact Nat.le_refl _
  | tail _ hmove ih => exact Nat.le_trans ih (hmove.change.pages_le table)

theorem catalog (h : Moves upkeep owns t p ops p') : p'.disk.catalog = p.disk.catalog := by
  induction h with
  | refl => rfl
  | tail _ hmove ih => exact hmove.change.catalog.trans ih

/-- Whoever operates on a page has it for itself. -/
theorem owns_of_mem (h : Moves upkeep owns t p ops p') (hp : Coherent owns p) :
    ∀ op ∈ ops, owns op.rid.page t := by
  induction h with
  | refl => simp
  | tail hmoves hmove ih =>
    intro op hop
    rcases List.mem_append.mp hop with hop | hop
    · exact ih op hop
    · cases hmove.change with
      | shuffle _ _ => cases hop
      | grow _ _ _ => cases hop
      | write _ _ _ _ _ => cases hop
      | revise id old new ops hold hrevision _ _ =>
        obtain ⟨hpage, hdirty⟩ := hrevision.of_mem hop
        rw [hpage]
        exact (hmoves.coherent hp).owned id old t hold hdirty

end Moves

/-- The end of a transaction: pages are written, or dropped if nobody else has changed them. -/
inductive Ending (owns : PageId → TxnId → Prop) (t : TxnId) (p : Pool) : Pool → Prop
  | refl : Ending owns t p p
  | move {p' p'' : Pool} (h : Ending owns t p p') (hmove : Move True owns t p' p'' []) :
      Ending owns t p p''
  | drop {p' : Pool} (id : PageId) (h : Ending owns t p p')
      (hmine : ∀ page s, p'.cachedPage? id = some page → page.dirtier = some s → s = t) :
      Ending owns t p (p'.discard id)

theorem cachedPage?_discard (p : Pool) (id q : PageId) :
    (p.discard id).cachedPage? q = if q = id then none else p.cachedPage? q :=
  p.buffer.cachedPage?_discard id q

theorem cachedPage?_of_discard (h : (p.discard id).cachedPage? q = some page) :
    p.cachedPage? q = some page := by
  rw [cachedPage?_discard] at h
  split at h
  · cases h
  · exact h

theorem Coherent.discard (hp : Coherent owns p) (id : PageId) : Coherent owns (p.discard id) where
  mounted := hp.mounted
  framed := hp.framed.discard id
  present q page hcached := hp.present q page (cachedPage?_of_discard hcached)
  owned q page s hcached := hp.owned q page s (cachedPage?_of_discard hcached)
  faithful q page img hcached := hp.faithful q page img (cachedPage?_of_discard hcached)

/-- Dropping a page shows in no other one. -/
theorem Shows.discard (h : p.Shows q img) (hne : q ≠ id) : (p.discard id).Shows q img := by
  have hcached : (p.discard id).cachedPage? q = p.cachedPage? q := by
    rw [cachedPage?_discard, if_neg hne]
  rcases h with hcontent | ⟨hnone, hgone⟩
  · apply Or.inl
    rw [content?, hcached]
    exact hcontent
  · exact Or.inr ⟨hcached.trans hnone, hgone⟩

/-- Dropping a page that rests changes nothing that is shown. -/
theorem Coherent.shows_discard (hp : Coherent owns p) (hrests : p.Rests id)
    (hshows : p.Shows id img) : (p.discard id).Shows id img := by
  have hnone : (p.discard id).cachedPage? id = none := by
    rw [cachedPage?_discard, if_pos rfl]
  rcases hshows with hcontent | ⟨-, hgone⟩
  · exact hp.shows_of_shuffled hrests hcontent rfl rfl (Or.inl hnone)
  · exact Or.inr ⟨hnone, hgone⟩

namespace Ending

theorem coherent (h : Ending owns t p p') (hp : Coherent owns p) : Coherent owns p' := by
  induction h with
  | refl => exact hp
  | move _ hmove ih => exact hmove.change.coherent ih hmove.framed
  | drop id _ _ ih => exact ih.discard id

theorem pages_le (h : Ending owns t p p') (table : TableId) :
    p.disk.pages table ≤ p'.disk.pages table := by
  induction h with
  | refl => exact Nat.le_refl _
  | move _ hmove ih => exact Nat.le_trans ih (hmove.change.pages_le table)
  | drop id _ _ ih => exact ih

/-- A page that the ending transaction does not have for itself shows what it showed. -/
theorem shows (h : Ending owns t p p') (hp : Coherent owns p) (hq : ¬ owns q t)
    (hshows : p.Shows q img) : p'.Shows q img := by
  induction h with
  | refl => exact hshows
  | move hending hmove ih =>
    obtain ⟨img', hreplay, hshows'⟩ := hmove.change.shows (hending.coherent hp) ih
    obtain rfl : img = img' := Option.some.inj hreplay
    exact hshows'
  | @drop p' id hending hmine ih =>
    by_cases hid : q = id
    case neg => exact ih.discard hid
    subst hid
    refine (hending.coherent hp).shows_discard (fun page hcached => ?_) ih
    cases hdirty : page.dirtier with
    | none => rfl
    | some s =>
      have howns := (hending.coherent hp).owned q page s hcached hdirty
      exact absurd (hmine page s hcached hdirty ▸ howns) hq

end Ending

end PagedHeap.Pool
