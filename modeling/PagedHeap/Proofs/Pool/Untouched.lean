import PagedHeap.Proofs.Pool.WriteAhead

/-!
# Pages left alone

A page that is fetched goes from its file into the cache, and may make a clean page leave it.  A
page that is appended is blank and stands behind the others.  None of this changes what a page shows,
who has dirtied it and what its file holds of it.  On a page in order a change that has been found
possible succeeds.
-/

namespace PagedHeap.Pool

open Disk

/-- Pages that show something go on showing it.  Others may come behind the first `n` pages of the
table, and are blank. -/
structure Extends (table : TableId) (n : Nat) (before after : PageId → Option Image) : Prop where
  kept : ∀ id img, before id = some img → after id = some img
  added : ∀ id img, before id = none → after id = some img →
    id.table = table ∧ n ≤ id.pageNo.toNat ∧ img = Image.blank

/-- All pages are as they were, in the cache as well as in the files, but for blank pages behind
those of the table. -/
structure Untouched (table : TableId) (p p' : Pool) : Prop where
  content : Extends table (p.disk.pages table) p.content? p'.content?
  files : Extends table (p.disk.pages table) p.disk.image? p'.disk.image?
  dirtier : ∀ id, p'.dirtier? id = p.dirtier? id
  journal : p'.journal = p.journal
  pages_le : p.disk.pages table ≤ p'.disk.pages table

/-- Stores keep their pages, and a cached page that nobody has dirtied is what its file holds. -/
structure Intact (p : Pool) : Prop where
  housed : p.Housed False
  clean : ∀ id page, p.cachedPage? id = some page →
    ∃ img, p.disk.image? id = some img ∧ (page.dirtier = none → page.image = img)

/-- Whatever a page shows is a page in order. -/
def InOrder (p : Pool) : Prop :=
  ∀ id img, p.content? id = some img → img.Layout

variable {table : TableId} {n k : Nat} {before between after : PageId → Option Image}
  {p p' p'' : Pool} {id q : PageId} {f : FrameId} {t : TxnId} {row : Row} {slot : SlotId}

namespace Extends

theorem of_eq (h : ∀ id, after id = before id) : Extends table n before after := by
  refine ⟨fun id img hbefore => (h id).trans hbefore, fun id img hnone hsome => ?_⟩
  rw [h, hnone] at hsome
  cases hsome

theorem of_blank (hnone : before id = none) (hblank : after id = some Image.blank)
    (hsame : ∀ q, q ≠ id → after q = before q) (htable : id.table = table)
    (hbehind : n ≤ id.pageNo.toNat) : Extends table n before after := by
  refine ⟨fun q img hbefore => ?_, fun q img hbefore hafter => ?_⟩
  · rw [hsame q, hbefore]
    rintro rfl
    cases hnone.symm.trans hbefore
  · by_cases heq : q = id
    · subst heq
      exact ⟨htable, hbehind, Option.some.inj (hafter.symm.trans hblank)⟩
    · cases hbefore.symm.trans ((hsame q heq).symm.trans hafter)

theorem trans (h : Extends table n before between) (h' : Extends table k between after)
    (hle : n ≤ k) : Extends table n before after := by
  refine ⟨fun id img hbefore => h'.kept id img (h.kept id img hbefore),
    fun id img hnone hafter => ?_⟩
  cases hbetween : between id with
  | none =>
    obtain ⟨htable, hbehind, hblank⟩ := h'.added id img hbetween hafter
    exact ⟨htable, Nat.le_trans hle hbehind, hblank⟩
  | some img' =>
    have hsame := (h'.kept id img' hbetween).symm.trans hafter
    exact Option.some.inj hsame ▸ h.added id img' hnone hbetween

end Extends

namespace Untouched

theorem refl (table : TableId) (p : Pool) : Untouched table p p :=
  ⟨.of_eq fun _ => rfl, .of_eq fun _ => rfl, fun _ => rfl, rfl, Nat.le_refl _⟩

theorem trans (h : Untouched table p p') (h' : Untouched table p' p'') : Untouched table p p'' where
  content := h.content.trans h'.content h.pages_le
  files := h.files.trans h'.files h.pages_le
  dirtier id := (h'.dirtier id).trans (h.dirtier id)
  journal := h'.journal.trans h.journal
  pages_le := Nat.le_trans h.pages_le h'.pages_le

theorem inOrder (h : Untouched table p p') (hp : p.InOrder) : p'.InOrder := by
  intro id img hcontent
  cases hold : p.content? id with
  | some img' =>
    have hsame := (h.content.kept id img' hold).symm.trans hcontent
    exact Option.some.inj hsame ▸ hp id img' hold
  | none =>
    obtain ⟨-, -, rfl⟩ := h.content.added id img hold hcontent
    exact Image.layout_blank.1

/-- Who refers to which frame does not matter. -/
theorem holders (table : TableId) (p : Pool) (holders : SortedMap Holder FrameId) :
    Untouched table p (p.withBuffer { p.buffer with holders }) :=
  ⟨.of_eq fun _ => rfl, .of_eq fun _ => rfl, fun _ => rfl, rfl, Nat.le_refl _⟩

end Untouched

/-! ## Fetching and appending -/

theorem Faithful.intact (hp : p.Faithful) : p.Intact where
  housed := hp.housed
  clean id page hcached := by
    refine ⟨page.underlying, hp.underlies id page hcached, fun hclean => ?_⟩
    rw [Page.underlying, hclean]

theorem Rests.dirtier?_eq (h : p.Rests id) : p.dirtier? id = none := by
  rw [dirtier?]
  cases hcached : p.cachedPage? id with
  | none => rfl
  | some page => exact h page hcached

theorem table_of_append (hm : p.disk.Mounted) (h : (appendPage table).on p = (.ok (.ok id), p')) :
    id.table = table := by
  rcases appendPage_cases hm table with ⟨id', p'', hon, hid, -⟩ | ⟨e, hon⟩
  · obtain ⟨heq, -⟩ := Prod.mk.inj (h.symm.trans hon)
    obtain rfl := Except.ok.inj (Except.ok.inj heq)
    rw [hid]
  · cases h.symm.trans hon

theorem table_of_require {s : Store} (h : s.require id = .ok ()) : id.table = s.volume.table := by
  have hrequire : s.volume.require id = .ok () := by
    rw [Store.require] at h
    cases howns : s.volume.owns id with
    | false => rwa [howns] at h
    | true =>
      rw [howns] at h
      cases hmeasure : s.measure id.pageNo with
      | error e =>
        rw [hmeasure] at h
        cases h
      | ok _ =>
        rw [hmeasure] at h
        exact h
  rw [Volume.require] at hrequire
  split at hrequire
  case isTrue hcontains =>
    rw [Volume.contains, Bool.and_eq_true] at hcontains
    exact eq_of_beq hcontains.1
  case isFalse => cases hrequire

namespace Intact

theorem mounted (hp : p.Intact) : p.disk.Mounted :=
  hp.housed.mounted.resolve_left id

theorem content?_of_rests (hp : p.Intact) (h : p.Rests id) : p.content? id = p.disk.image? id := by
  cases hcached : p.cachedPage? id with
  | none => exact content?_of_not_cached hcached
  | some page =>
    obtain ⟨img, himage, hclean⟩ := hp.clean id page hcached
    rw [content?_of_cached hcached, himage, hclean (h page hcached)]

/-- Pages that nobody has dirtied may come into the cache and leave it. -/
theorem untouched_of_cache (hp : p.Intact) (p' : Pool) (hframed : p'.buffer.Framed)
    (hdisk : SameFiles p.disk p'.disk) (hjournal : p'.journal = p.journal)
    (hcache : ∀ q, p'.cachedPage? q = p.cachedPage? q ∨
      p.Rests q ∧ (p'.cachedPage? q = none ∨
        ∃ img, p.disk.image? q = some img ∧ p'.cachedPage? q = some (Page.clean q img)))
    (table : TableId) : p'.Intact ∧ Untouched table p p' := by
  have hfiles := hdisk.image? hp.mounted
  have hrests : ∀ q, p'.cachedPage? q = p.cachedPage? q ∨
      p.Rests q ∧ p'.content? q = p.disk.image? q ∧ p'.dirtier? q = none := by
    intro q
    refine (hcache q).imp_right fun ⟨hrests, hnew⟩ => ⟨hrests, ?_⟩
    rcases hnew with hnone | ⟨img, himage, hcached⟩
    · rw [content?_of_not_cached hnone, hfiles, dirtier?, hnone]
      exact ⟨rfl, rfl⟩
    · rw [content?_of_cached hcached, himage, dirtier?, hcached]
      exact ⟨rfl, rfl⟩
  refine ⟨⟨⟨hframed, Or.inr (hdisk.mounted hp.mounted)⟩, fun q page hcached => ?_⟩,
    .of_eq fun q => ?_, .of_eq hfiles, fun q => ?_, hjournal, Nat.le_of_eq (hdisk.pages table).symm⟩
  · rw [hfiles]
    rcases hcache q with hsame | ⟨-, hnone | ⟨img, himage, hclean⟩⟩
    · exact hp.clean q page (hsame.symm.trans hcached)
    · cases hnone.symm.trans hcached
    · obtain rfl := Option.some.inj (hclean.symm.trans hcached)
      exact ⟨img, himage, fun _ => rfl⟩
  · rcases hrests q with hsame | ⟨hold, hcontent, -⟩
    · rw [content?, content?, hsame, hfiles]
    · exact hcontent.trans (hp.content?_of_rests hold).symm
  · rcases hrests q with hsame | ⟨hold, -, hdirtier⟩
    · rw [dirtier?, dirtier?, hsame]
    · exact hdirtier.trans hold.dirtier?_eq.symm

theorem untouched_fetch {x : Checked (Except Error FrameId)} (hp : p.Intact) (table : TableId)
    (h : (fetch id).on p = (x, p')) : p'.Intact ∧ Untouched table p p' := by
  obtain ⟨hframed, hdisk, hjournal, hcache⟩ := fetch_shuffled hp.housed.framed h
  exact hp.untouched_of_cache p' hframed hdisk hjournal hcache table

/-- The file has grown by a blank page, and the cache is as it was. -/
theorem untouched_of_appended (hp : p.Intact) (hhoused : p'.Housed False)
    (h : Appended p id p') (htable : id.table = table) (hbuffer : p'.buffer = p.buffer)
    (hjournal : p'.journal = p.journal) (hle : p.disk.pages table ≤ p'.disk.pages table) :
    p'.Intact ∧ Untouched table p p' := by
  have hcached : ∀ q, p'.cachedPage? q = p.cachedPage? q := fun q => by
    rw [cachedPage?, cachedPage?, hbuffer]
  have hnew : p.cachedPage? id = none := by
    cases hpage : p.cachedPage? id with
    | none => rfl
    | some page =>
      obtain ⟨img, himage, -⟩ := hp.clean id page hpage
      cases h.before.symm.trans himage
  have hold : ∀ q, q ≠ id → p'.disk.image? q = p.disk.image? q := fun q hne =>
    (h.after q).trans (if_neg hne)
  have hbehind : p.disk.pages table ≤ id.pageNo.toNat :=
    htable ▸ Nat.le_of_eq h.pageNo.symm
  refine ⟨⟨hhoused, fun q page hpage => ?_⟩, ?_, ?_, fun q => ?_, hjournal, hle⟩
  · replace hpage := (hcached q).symm.trans hpage
    rw [hold q]
    · exact hp.clean q page hpage
    · rintro rfl
      cases hnew.symm.trans hpage
  · apply Extends.of_blank _ _ _ htable hbehind
    · exact (content?_of_not_cached hnew).trans h.before
    · refine (content?_of_not_cached ((hcached id).trans hnew)).trans ?_
      exact (h.after id).trans (if_pos rfl)
    · intro q hne
      rw [content?, content?, hcached, hold q hne]
  · exact .of_blank h.before ((h.after id).trans (if_pos rfl)) hold htable hbehind
  · rw [dirtier?, dirtier?, hcached]

theorem untouched_append {x : Checked (Except Error PageId)} (hp : p.Intact)
    (h : (appendPage table).on p = (x, p')) (hroom : p'.disk.Roomy) :
    p'.Intact ∧ Untouched table p p' := by
  rcases appendPage_any table p with ⟨id, disk, hon⟩ | ⟨e, hon⟩
  case inr =>
    obtain ⟨-, rfl⟩ := Prod.mk.inj (h.symm.trans hon)
    exact ⟨hp, .refl table p'⟩
  obtain ⟨rfl, rfl⟩ := Prod.mk.inj (h.symm.trans hon)
  have hdoes : Does False (fun _ _ => True) p (.appended id) (p.withDisk disk) := .append h
  obtain ⟨happended, hbuffer⟩ := appended_of_append hp.mounted h hroom
  exact hp.untouched_of_appended (hdoes.housed hp.housed) happended (table_of_append hp.mounted h)
    hbuffer rfl (hdoes.pages_le hp.mounted table)

end Intact

/-! ## Changing rows -/

/-- The page in the frame has been marked and may have changed; nothing else has. -/
structure Marked (p : Pool) (id : PageId) (f : FrameId) (p' : Pool) : Prop where
  framed : p'.buffer.Framed
  cached : p'.buffer.cached? id = some f
  disk : p'.disk = p.disk

theorem marked_setPage (hp : p.buffer.Framed) (hf : p.buffer.cached? id = some f) (t : TxnId)
    (img : Image) : Marked p id f (p.setPage f (((p.page f).markDirty t).withImage img)) :=
  ⟨hp.setPage hf ((id_markDirty _ t).trans (hp id f hf).2), hf, rfl⟩

/-- There is room for the row, and then it is placed. -/
theorem placeRow_of_hasRoom (hp : p.buffer.Framed) (hf : p.buffer.cached? id = some f)
    (hpage : (p.page f).image.Layout) (t : TxnId)
    (hroom : (p.page f).hasRoom row.length = .ok true) :
    ∃ rid p', (placeRow f t row).on p = (.ok (.ok (some rid)), p') ∧ Marked p id f p' := by
  obtain ⟨img, hinsert, -⟩ := hpage.on_insert (hpage.fits_of_hasRoom hroom)
  rw [on_placeRow, hroom, hinsert]
  exact ⟨_, _, rfl, marked_setPage hp hf t img⟩

/-- A row that is not placed leaves the pool as it is. -/
theorem placeRow_any (hp : p.buffer.Framed) (hf : p.buffer.cached? id = some f)
    (hpage : (p.page f).image.Layout) (t : TxnId) (row : Row) :
    (∃ rid p', (placeRow f t row).on p = (.ok (.ok (some rid)), p') ∧ Marked p id f p') ∨
    (placeRow f t row).on p = (.ok (.ok none), p) ∨
    ∃ fault, (placeRow f t row).on p = (.error fault, p) := by
  rcases hroom : (p.page f).hasRoom row.length with fault | room
  · apply Or.inr
    apply Or.inr
    refine ⟨fault, ?_⟩
    rw [on_placeRow, hroom, setPage_self]
  cases room with
  | true => exact Or.inl (placeRow_of_hasRoom hp hf hpage t hroom)
  | false =>
    apply Or.inr
    apply Or.inl
    rw [on_placeRow, hroom, setPage_self]

/-- There is a row in the slot, and then it is removed. -/
theorem removeRow_of_row (hp : p.buffer.Framed) (hf : p.buffer.cached? id = some f)
    (hpage : (p.page f).image.Layout) (t : TxnId) (hrow : (p.page f).row slot = .ok (.ok row)) :
    ∃ p', (removeRow f t slot).on p = (.ok (.ok ()), p') ∧ Marked p id f p' := by
  have hdelete := Image.on_delete hpage slot
  have hfound := (hpage.row_eq slot).symm.trans hrow
  rcases hget : (p.page f).image.slots[slot.toNat]? with _ | _ | old
  · rw [hget] at hfound
    cases hfound
  · rw [hget] at hfound
    cases hfound
  · rw [hget] at hdelete
    rw [on_removeRow, hrow, hdelete]
    exact ⟨_, rfl, marked_setPage hp hf t _⟩

/-- A row that is not removed leaves the pool as it is. -/
theorem removeRow_any (hp : p.buffer.Framed) (hf : p.buffer.cached? id = some f)
    (hpage : (p.page f).image.Layout) (t : TxnId) (slot : SlotId) :
    (∃ p', (removeRow f t slot).on p = (.ok (.ok ()), p') ∧ Marked p id f p') ∨
    (∃ e, (removeRow f t slot).on p = (.ok (.error e), p)) ∨
    ∃ fault, (removeRow f t slot).on p = (.error fault, p) := by
  rcases hrow : (p.page f).row slot with fault | e | row
  · apply Or.inr
    apply Or.inr
    refine ⟨fault, ?_⟩
    rw [on_removeRow, hrow, setPage_self]
  · apply Or.inr
    apply Or.inl
    refine ⟨e, ?_⟩
    rw [on_removeRow, hrow, setPage_self]
  · exact Or.inl (removeRow_of_row hp hf hpage t hrow)

theorem track_of_cached (hp : p.buffer.Framed) (hf : p.buffer.cached? id = some f) (t : TxnId) :
    ∃ p', (track f t).on p = (.ok (.ok ()), p') := by
  have hcached : p.buffer.isCached (p.page f).id = true := by
    rw [page, (hp id f hf).2]
    exact Buffer.isCached_iff.mpr ⟨f, hf⟩
  have htracked := tracked f t p
  generalize (track f t).on p = x at htracked ⊢
  cases htracked with
  | again => exact ⟨_, rfl⟩
  | back _ hnone => cases hcached.symm.trans hnone
  | noRoom _ hnone => cases hcached.symm.trans hnone

end PagedHeap.Pool
