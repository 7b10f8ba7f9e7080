import PagedHeap.Pool.Rows
import PagedHeap.Proofs.Act
import PagedHeap.Proofs.Pool.Tidy

/-!
# Fetching, appending and changing rows

Each action on the pool is one of its moves, or a few, whatever becomes of it.
-/

namespace PagedHeap

namespace Image

/-- An insertion that does not succeed leaves the page as it was. -/
theorem on_insert_cases (row : Row) (img : Image) :
    (∃ slot img', (insert row).on img = (.ok (.ok slot), img')) ∨
    (∃ e, (insert row).on img = (.ok (.error e), img)) ∨
    ∃ fault, (insert row).on img = (.error fault, img) := by
  simp only [insert, Act.on_bind, Act.on_get, Act.on_checked]
  cases img.accepts row with
  | error fault => exact Or.inr (Or.inr ⟨fault, rfl⟩)
  | ok accepted =>
    cases accepted with
    | true =>
      simp only [Except.map, if_true, Act.on_bind, Act.on_checked]
      cases img.putRow row with
      | error fault => exact Or.inr (Or.inr ⟨fault, rfl⟩)
      | ok placed => exact Or.inl ⟨placed.1, placed.2, rfl⟩
    | false =>
      simp only [Except.map, Bool.false_eq_true, if_false, Act.on_bind, Act.on_checked]
      cases img.available with
      | error fault => exact Or.inr (Or.inr ⟨fault, rfl⟩)
      | ok available => exact Or.inr (Or.inl ⟨_, rfl⟩)

/-- On a page in order every insertion is answered. -/
theorem Layout.insert_answers {img img' : Image} (h : Layout img) (row : Row) (fault : Fault) :
    (insert row).on img ≠ (.error fault, img') := by
  intro hon
  by_cases hfits : img.slots.Fits row.length
  · obtain ⟨placed, hplaced, -⟩ := h.on_insert hfits
    rw [hplaced] at hon
    cases hon
  · rw [h.on_insert_refused hfits] at hon
    cases hon

theorem on_delete_cases (slot : SlotId) (img : Image) :
    (∃ img', (delete slot).on img = (.ok (.ok ()), img')) ∨
    (∃ e, (delete slot).on img = (.ok (.error e), img)) ∨
    ∃ fault, (delete slot).on img = (.error fault, img) := by
  simp only [delete, Act.on_bind, Act.on_get, Act.on_checked]
  cases img.occupiedEntry slot with
  | error fault => exact Or.inr (Or.inr ⟨fault, rfl⟩)
  | ok found =>
    cases found with
    | error e => exact Or.inr (Or.inl ⟨e, rfl⟩)
    | ok entry =>
      simp only [Except.map, Act.on_bind, Act.on_checked]
      cases img.writeEntry slot.toNat Entry.free with
      | error fault => exact Or.inr (Or.inr ⟨fault, rfl⟩)
      | ok img' => exact Or.inl ⟨img', rfl⟩

theorem Layout.delete_answers {img img' : Image} (h : Layout img) (slot : SlotId) (fault : Fault) :
    (delete slot).on img ≠ (.error fault, img') := by
  intro hon
  rw [on_delete h] at hon
  split at hon
  · cases hon
  · cases hon
  · cases hon

end Image

namespace Pool

open Disk

variable {upkeep : Prop} {owns : PageId → TxnId → Prop} {t : TxnId} {p p' : Pool}
  {id q : PageId} {f : FrameId}
  {page : Page} {ops : List RowOp} {row : Row} {table : TableId}

/-- Actions that touch neither the frames, nor the cache, nor the files. -/
theorem move_of_same (hp : p.buffer.Framed) (hframes : p'.buffer.frames = p.buffer.frames)
    (hcache : p'.buffer.cache = p.buffer.cache) (hdisk : SameFiles p.disk p'.disk)
    (hsteady : upkeep ∨ (p.Steady → p'.Steady)) : Move upkeep owns t p p' [] :=
  ⟨hp.congr hframes hcache,
    .shuffle hdisk fun q => Or.inl (Buffer.cachedPage?_congr hframes hcache q), hsteady⟩

theorem move_refl (hp : p.buffer.Framed) : Move upkeep owns t p p [] :=
  move_of_same hp rfl rfl (SameFiles.refl _) (Or.inr id)

theorem Steady.withBuffer (h : p.Steady) (b : Buffer) : (p.withBuffer b).Steady :=
  ⟨h.logging, h.writable⟩

theorem Steady.put (h : p.Steady) {s s' : Store} (hs : p.disk.store? table = some s)
    (hkept : s.faults.unwritable = [] → s'.faults.unwritable = []) :
    (p.withDisk (p.disk.put table s')).Steady := by
  refine ⟨h.logging, fun u s₁ hs₁ => ?_⟩
  have hput : (p.disk.put table s').store? u = some s₁ := hs₁
  rw [store?_put] at hput
  split at hput
  case isTrue heq =>
    subst heq
    obtain rfl := Option.some.inj hput
    exact ⟨(h.writable table s hs).1, hkept (h.writable table s hs).2⟩
  case isFalse => exact h.writable u s₁ hput

theorem Steady.update (h : p.Steady) (table : TableId) {f : Store → Store}
    (hkept : ∀ s, s.faults.unwritable = [] → (f s).faults.unwritable = []) :
    (p.withDisk (p.disk.update table f)).Steady := by
  rw [Disk.update]
  split
  case h_1 s hs => exact h.put hs (hkept s)
  case h_2 => exact h

theorem move_setPage (hp : p.buffer.Framed) (hf : p.buffer.cached? id = some f) {new : Page}
    (hrevision : Revision upkeep owns t p id (p.page f) new ops) (hid : new.id = id) :
    Move upkeep owns t p (p.setPage f new) ops :=
  ⟨hp.setPage hf hid, .revise id (p.page f) new ops (Buffer.cachedPage?_of_cached hf) hrevision rfl
    fun q => Buffer.cachedPage?_setPage hp hf new q, Or.inr fun h => h.withBuffer _⟩

theorem page_setPage (hp : p.buffer.Framed) (hf : p.buffer.cached? id = some f) (new : Page) :
    (p.setPage f new).page f = new := by
  rw [page, setPage, withBuffer, Buffer.page_setPage (hp id f hf).1, if_pos rfl]

theorem setPage_setPage (p : Pool) (f : FrameId) (old new : Page) :
    (p.setPage f old).setPage f new = p.setPage f new := by
  simp [setPage, withBuffer, Buffer.setPage]

theorem setPage_self (p : Pool) (f : FrameId) : p.setPage f (p.page f) = p := by
  have hself := Buffer.setPage_self p.buffer f
  exact congrArg (fun b => ({ p with buffer := b } : Pool)) hself

theorem move_setPage_self (hp : p.buffer.Framed) (f : FrameId) :
    Move upkeep owns t p (p.setPage f (p.page f)) [] := by
  rw [setPage_self]
  exact move_refl hp

/-! ## Fetching -/

theorem on_readPage (id : PageId) (p : Pool) :
    (readPage id).on p = match p.disk.lookup id.table with
      | .error e => (.ok (.error e), p)
      | .ok store => match store.read id with
        | .error e => (.ok (.error e), p)
        | .ok (page, store) => (.ok (.ok page), p.withDisk (p.disk.put id.table store)) := by
  simp only [readPage, Act.on_bind, Act.on_get, Act.on_ofResult]
  cases p.disk.lookup id.table with
  | error e => rfl
  | ok store =>
    simp only
    cases store.read id with
    | error e => rfl
    | ok found => rfl

theorem readPage_cases (id : PageId) (p : Pool) :
    (∃ page p', (readPage id).on p = (.ok (.ok page), p') ∧ p.disk.image? id = some page.image ∧
      page = Page.clean id page.image ∧ SameFiles p.disk p'.disk ∧ p'.buffer = p.buffer ∧
      (p.Steady → p'.Steady)) ∨
    ∃ e, (readPage id).on p = (.ok (.error e), p) := by
  rw [on_readPage]
  cases hlookup : p.disk.lookup id.table with
  | error e => exact Or.inr ⟨e, rfl⟩
  | ok store =>
    cases hread : store.read id with
    | error e => exact Or.inr ⟨e, by simp only [hread]⟩
    | ok found =>
      obtain ⟨page, store'⟩ := found
      have hs := (store?_of_lookup hlookup).1
      obtain ⟨himage, hclean, hfaults, hsame⟩ := read_eq_ok hs hread
      refine Or.inl ⟨page, p.withDisk (p.disk.put id.table store'), ?_, himage, hclean, hsame, rfl,
        fun h => h.put hs fun hnone => (congrArg Faults.unwritable hfaults).trans hnone⟩
      simp only [hread]

theorem on_fetch (id : PageId) (p : Pool) :
    (fetch id).on p = match p.buffer.cached? id with
      | some f => (.ok (.ok f), p.withBuffer (p.buffer.touch id))
      | none => match (readPage id).on p with
        | (.ok (.ok page), p) => match (p.buffer.load page).2.add id (p.buffer.load page).1 with
          | .ok buffer => (.ok (.ok (p.buffer.load page).1), p.withBuffer buffer)
          | .error e => (.ok (.error e), p)
        | (.ok (.error e), p) => (.ok (.error e), p)
        | (.error fault, p) => (.error fault, p) := by
  simp only [fetch, Act.on_bind, Act.on_get]
  cases p.buffer.cached? id with
  | some f => rfl
  | none =>
    simp only [Act.on_bind]
    rcases (readPage id).on p with ⟨fault | e | page, p'⟩
    · rfl
    · rfl
    · simp only [Act.on_get, Act.on_ofResult]
      cases (p'.buffer.load page).2.add id (p'.buffer.load page).1 with
      | error e => rfl
      | ok buffer => rfl

/-- A fetch ends with the frame that the page is cached in, or is refused; it never faults. -/
theorem fetch_cases (hp : Coherent owns p) (t : TxnId) (id : PageId) :
    ∃ p', Move upkeep owns t p p' [] ∧ SameFiles p.disk p'.disk ∧
      ((∃ f, (fetch id).on p = (.ok (.ok f), p') ∧ p'.buffer.cached? id = some f) ∨
        ∃ e, (fetch id).on p = (.ok (.error e), p')) := by
  rw [on_fetch]
  cases hcached : p.buffer.cached? id with
  | some f =>
    exact ⟨p.withBuffer (p.buffer.touch id), move_of_same hp.framed rfl rfl (SameFiles.refl _)
      (Or.inr fun h => h.withBuffer _), SameFiles.refl _, Or.inl ⟨f, rfl, hcached⟩⟩
  | none =>
    rcases readPage_cases id p with
      ⟨page, p₁, hread, himage, hclean, hsame, hbuffer, hsteady⟩ | ⟨e, hread⟩
    case inr => exact ⟨p, move_refl hp.framed, SameFiles.refl _, Or.inr ⟨e, by rw [hread]⟩⟩
    rw [hread]
    simp only [hbuffer]
    cases hadd : (p.buffer.load page).2.add id (p.buffer.load page).1 with
    | error e =>
      exact ⟨p₁, move_of_same hp.framed (by rw [hbuffer]) (by rw [hbuffer]) hsame
        (Or.inr hsteady), hsame, Or.inr ⟨e, rfl⟩⟩
    | ok buffer =>
      have hpage : (p.buffer.load page).2.page (p.buffer.load page).1 = page := by
        rw [Buffer.page_load]
        exact if_pos rfl
      have hid : ((p.buffer.load page).2.page (p.buffer.load page).1).id = id := by
        rw [hpage, hclean]
        rfl
      have hlt : (p.buffer.load page).1.number < (p.buffer.load page).2.frames.size := by
        simp [Buffer.load]
      obtain ⟨hadded, hcached'⟩ := Buffer.added_of_add (hp.framed.load page) hlt hid hadd
      refine ⟨p₁.withBuffer buffer, ⟨hadded.framed, .shuffle hsame fun q => ?_,
        Or.inr fun h => (hsteady h).withBuffer _⟩, hsame, Or.inl ⟨_, rfl, hcached'⟩⟩
      have hold : ∀ q, (p.buffer.load page).2.cachedPage? q = p.cachedPage? q :=
        Buffer.cachedPage?_load hp.framed page
      by_cases hq : q = id
      · subst hq
        have hnone : p.cachedPage? q = none := Buffer.cachedPage?_eq_none.mpr hcached
        refine Or.inr ⟨fun page' hpage' => ?_, Or.inr ⟨page.image, himage, ?_⟩⟩
        · rw [hnone] at hpage'
          cases hpage'
        · exact hadded.cached.trans (congrArg some (hpage.trans hclean))
      · rcases hadded.others q hq with hsame' | ⟨hnone, old, hold', hclean'⟩
        · exact Or.inl (hsame'.trans (hold q))
        · refine Or.inr ⟨fun page' hpage' => ?_, Or.inl hnone⟩
          rw [hold] at hold'
          rw [hold'] at hpage'
          exact Option.some.inj hpage' ▸ hclean'

/-! ## Appending -/

theorem on_appendPage (table : TableId) (p : Pool) :
    (appendPage table).on p = match p.disk.store? table with
      | none => (.ok (.error (.noTable table)), p)
      | some store => match store.append with
        | .error e => (.ok (.error e), p)
        | .ok (id, store) => (.ok (.ok id), p.withDisk (p.disk.put table store)) := by
  simp only [appendPage, Act.on_bind, Act.on_get]
  cases p.disk.store? table with
  | none => rfl
  | some store =>
    simp only [Act.on_bind, Act.on_ofResult]
    cases store.append with
    | error e => rfl
    | ok appended => rfl

/-- Appending changes files only, and never faults. -/
theorem appendPage_any (table : TableId) (p : Pool) :
    (∃ id disk, (appendPage table).on p = (.ok (.ok id), p.withDisk disk)) ∨
      ∃ e, (appendPage table).on p = (.ok (.error e), p) := by
  rw [on_appendPage]
  cases p.disk.store? table with
  | none => exact Or.inr ⟨_, rfl⟩
  | some store =>
    cases happend : store.append with
    | error e => exact Or.inr ⟨e, by simp only [happend]⟩
    | ok appended => exact Or.inl ⟨appended.1, _, by simp only [happend]; rfl⟩

/-- A page is appended behind the others, unless there is no store or its device fails. -/
theorem appendPage_cases (hm : p.disk.Mounted) (table : TableId) :
    (∃ id p', (appendPage table).on p = (.ok (.ok id), p') ∧
      id = ⟨table, p.disk.pageCount table⟩ ∧ p'.buffer = p.buffer ∧ Grown p.disk p'.disk id ∧
      (p.Steady → p'.Steady) ∧ p'.disk.pages table ≤ p.disk.pages table + 1) ∨
    ∃ e, (appendPage table).on p = (.ok (.error e), p) := by
  rw [on_appendPage]
  cases hs : p.disk.store? table with
  | none => exact Or.inr ⟨_, rfl⟩
  | some store =>
    cases happend : store.append with
    | error e => exact Or.inr ⟨e, by simp only [happend]⟩
    | ok appended =>
      obtain ⟨id, store'⟩ := appended
      obtain ⟨hid, hgrown, hone⟩ := grown_put hm hs happend
      obtain ⟨v, -, rfl⟩ := eq_of_append happend
      exact Or.inl ⟨id, p.withDisk (p.disk.put table { store with volume := v }),
        by simp only [happend], hid, rfl, hgrown,
        fun h => h.put hs fun hnone => hnone, hone⟩

theorem move_of_grown (hp : p.buffer.Framed) (hbuffer : p'.buffer = p.buffer)
    (hdisk : Grown p.disk p'.disk id) (hsteady : p.Steady → p'.Steady) :
    Move upkeep owns t p p' [] :=
  ⟨hbuffer ▸ hp, .grow id hdisk fun q => congrArg (fun b => b.cachedPage? q) hbuffer,
    Or.inr hsteady⟩

/-! ## Changing rows -/

theorem on_onPage {α : Type} (f : FrameId) (act : Act Page α) (p : Pool) :
    (onPage f act).on p = ((act.on (p.page f)).1, p.setPage f (act.on (p.page f)).2) := rfl

theorem on_pageInsert (row : Row) (page : Page) :
    (Page.insert row).on page =
      (((Image.insert row).on page.image).1.map fun result =>
          result.map fun slot => ⟨page.id, slot⟩,
        page.withImage ((Image.insert row).on page.image).2) := by
  simp only [Page.insert, Act.on_bind, Act.on_within, Act.on_get, Act.on_pure]
  rcases (Image.insert row).on page.image with ⟨fault | e | slot, img⟩
  · rfl
  · rfl
  · rfl

theorem on_pageDelete (slot : SlotId) (page : Page) :
    (Page.delete slot).on page =
      (((Image.delete slot).on page.image).1,
        page.withImage ((Image.delete slot).on page.image).2) :=
  rfl

theorem on_placeRow (f : FrameId) (t : TxnId) (row : Row) (p : Pool) :
    (placeRow f t row).on p = match (p.page f).hasRoom row.length with
      | .error fault => (.error fault, p.setPage f (p.page f))
      | .ok false => (.ok (.ok none), p.setPage f (p.page f))
      | .ok true =>
        (((Image.insert row).on (p.page f).image).1.map fun result =>
            result.map fun slot => some ⟨(p.page f).id, slot⟩,
          p.setPage f (((p.page f).markDirty t).withImage
            ((Image.insert row).on (p.page f).image).2)) := by
  simp only [placeRow, on_onPage, Act.on_bind, Act.on_get, Act.on_checked]
  cases (p.page f).hasRoom row.length with
  | error fault => rfl
  | ok room =>
    cases room with
    | false => rfl
    | true =>
      simp only [Except.map, if_true, Act.on_bind, Act.on_set, on_pageInsert, image_markDirty,
        id_markDirty]
      rcases (Image.insert row).on (p.page f).image with ⟨fault | e | slot, img⟩
      · rfl
      · rfl
      · rfl

/-- A row is placed on the page of the frame. -/
theorem page_of_placeRow {f : FrameId} {t : TxnId} {row : Row} {rid : RecordId}
    (h : ((placeRow f t row).on p).1 = .ok (.ok (some rid))) : rid.page = (p.page f).id := by
  rw [on_placeRow] at h
  generalize (p.page f).hasRoom row.length = room at h
  rcases room with fault | _ | _
  · cases h
  · cases h
  · simp only at h
    generalize ((Image.insert row).on (p.page f).image).1 = result at h
    rcases result with fault | e | slot
    · cases h
    · cases h
    · obtain rfl := Option.some.inj (Except.ok.inj (Except.ok.inj h))
      rfl

theorem on_removeRow (f : FrameId) (t : TxnId) (slot : SlotId) (p : Pool) :
    (removeRow f t slot).on p = match (p.page f).row slot with
      | .error fault => (.error fault, p.setPage f (p.page f))
      | .ok (.error e) => (.ok (.error e), p.setPage f (p.page f))
      | .ok (.ok _) =>
        (((Image.delete slot).on (p.page f).image).1,
          p.setPage f (((p.page f).markDirty t).withImage
            ((Image.delete slot).on (p.page f).image).2)) := by
  simp only [removeRow, on_onPage, Act.on_bind, Act.on_get, Act.on_checked]
  rcases (p.page f).row slot with fault | e | old
  · rfl
  · rfl
  · simp only [Except.map, Act.on_set, Act.on_ofResult, on_pageDelete, image_markDirty]

/-- Marking a page and then making an operation on it. -/
theorem moves_perform (hp : p.buffer.Framed) (hf : p.buffer.cached? id = some f) (howns : owns id t)
    {op : RowOp} {img : Image} (hop : op.rid.page = id)
    (himage : op.onImage? (p.page f).image = some img) :
    Moves upkeep owns t p [op] (p.setPage f (((p.page f).markDirty t).withImage img)) := by
  have hid : ((p.page f).markDirty t).id = id := (id_markDirty _ _).trans (hp id f hf).2
  have hmark : Move upkeep owns t p (p.setPage f ((p.page f).markDirty t)) [] :=
    move_setPage hp hf (.mark howns) hid
  have hpage := page_setPage hp hf ((p.page f).markDirty t)
  have hrevision : Revision upkeep owns t (p.setPage f ((p.page f).markDirty t)) id
      ((p.setPage f ((p.page f).markDirty t)).page f) (((p.page f).markDirty t).withImage img)
      [op] := by
    rw [hpage]
    exact .perform op img rfl hop ((congrArg op.onImage? (image_markDirty _ _)).trans himage)
  have hperform := move_setPage hmark.framed hf hrevision hid
  rw [setPage_setPage] at hperform
  exact (Moves.single hmark).tail hperform

/-- Marking a page whose image stays. -/
theorem move_mark (hp : p.buffer.Framed) (hf : p.buffer.cached? id = some f) (howns : owns id t)
    {img : Image} (himage : img = (p.page f).image) :
    Move upkeep owns t p (p.setPage f (((p.page f).markDirty t).withImage img)) [] := by
  have hsame : ((p.page f).markDirty t).withImage img = (p.page f).markDirty t := by
    rw [himage, ← image_markDirty (p.page f) t]
    rfl
  rw [hsame]
  exact move_setPage hp hf (.mark howns) ((id_markDirty _ _).trans (hp id f hf).2)

theorem placeRow_cases (hp : p.buffer.Framed) (hf : p.buffer.cached? id = some f)
    (howns : owns id t) {row : Row} (hshort : row.length ≤ maxRowSize) :
    ∃ p', p'.buffer.cached? id = some f ∧ p'.disk = p.disk ∧
      ((∃ rid, (placeRow f t row).on p = (.ok (.ok (some rid)), p') ∧ rid.page = id ∧
          Moves upkeep owns t p [.put rid row] p') ∨
        (placeRow f t row).on p = (.ok (.ok none), p') ∧ p' = p ∧
          (p.page f).image.hasRoom row.length = .ok false ∨
        (∃ e, (placeRow f t row).on p = (.ok (.error e), p')) ∧ Move upkeep owns t p p' [] ∨
        (∃ fault, (placeRow f t row).on p = (.error fault, p')) ∧ Move upkeep owns t p p' [] ∧
          ¬ p.Tidy) := by
  rw [on_placeRow]
  rcases hroom : (p.page f).hasRoom row.length with fault | room
  · refine ⟨p.setPage f (p.page f), hf, rfl,
      Or.inr (Or.inr (Or.inr ⟨⟨fault, rfl⟩, move_setPage_self hp f, fun htidy => ?_⟩))⟩
    cases hroom.symm.trans ((htidy.page hf).1.hasRoom_short hshort)
  cases room with
  | false =>
    exact ⟨p.setPage f (p.page f), hf, rfl, Or.inr (Or.inl ⟨rfl, setPage_self p f, hroom⟩)⟩
  | true =>
    refine ⟨p.setPage f (((p.page f).markDirty t).withImage
      ((Image.insert row).on (p.page f).image).2), hf, rfl, ?_⟩
    rcases Image.on_insert_cases row (p.page f).image with
      ⟨slot, img, hon⟩ | ⟨e, hon⟩ | ⟨fault, hon⟩
    · refine Or.inl ⟨⟨(p.page f).id, slot⟩, by rw [hon]; rfl, (hp id f hf).2, ?_⟩
      refine moves_perform hp hf howns (hp id f hf).2 ?_
      simp only [RowOp.onImage?, hon, if_true]
    · exact Or.inr (Or.inr (Or.inl ⟨⟨e, by rw [hon]; rfl⟩, move_mark hp hf howns (by rw [hon])⟩))
    · exact Or.inr (Or.inr (Or.inr ⟨⟨fault, by rw [hon]; rfl⟩, move_mark hp hf howns (by rw [hon]),
        fun htidy => (htidy.page hf).1.insert_answers row fault hon⟩))

theorem removeRow_cases (hp : p.buffer.Framed) (hf : p.buffer.cached? id = some f)
    (howns : owns id t) (slot : SlotId) :
    ∃ p', p'.buffer.cached? id = some f ∧
      ((removeRow f t slot).on p = (.ok (.ok ()), p') ∧
          Moves upkeep owns t p [.remove ⟨id, slot⟩] p' ∨
        (∃ e, (removeRow f t slot).on p = (.ok (.error e), p')) ∧ Move upkeep owns t p p' [] ∨
        (∃ fault, (removeRow f t slot).on p = (.error fault, p')) ∧ Move upkeep owns t p p' [] ∧
          ¬ p.Tidy) := by
  rw [on_removeRow]
  rcases hrow : (p.page f).row slot with fault | e | old
  · refine ⟨p.setPage f (p.page f), hf,
      Or.inr (Or.inr ⟨⟨fault, rfl⟩, move_setPage_self hp f, fun htidy => ?_⟩)⟩
    cases hrow.symm.trans ((htidy.page hf).1.row_eq slot)
  · exact ⟨p.setPage f (p.page f), hf, Or.inr (Or.inl ⟨⟨e, rfl⟩, move_setPage_self hp f⟩)⟩
  · refine ⟨p.setPage f (((p.page f).markDirty t).withImage
      ((Image.delete slot).on (p.page f).image).2), hf, ?_⟩
    rcases Image.on_delete_cases slot (p.page f).image with ⟨img, hon⟩ | ⟨e, hon⟩ | ⟨fault, hon⟩
    · refine Or.inl ⟨by rw [hon], moves_perform hp hf howns rfl ?_⟩
      simp only [RowOp.onImage?, hon]
    · exact Or.inr (Or.inl ⟨⟨e, by rw [hon]⟩, move_mark hp hf howns (by rw [hon])⟩)
    · exact Or.inr (Or.inr ⟨⟨fault, by rw [hon]⟩, move_mark hp hf howns (by rw [hon]),
        fun htidy => (htidy.page hf).1.delete_answers slot fault hon⟩)

/-- Tracking a frame that is the cached one marks its page. -/
theorem track_eq (hp : p.buffer.Framed) (hf : p.buffer.cached? id = some f) (howns : owns id t) :
    ∃ p', (track f t).on p = (.ok (.ok ()), p') ∧ p'.buffer.cached? id = some f ∧
      p'.disk = p.disk ∧ Move upkeep owns t p p' [] := by
  have hmark : Move upkeep owns t p (p.setPage f ((p.page f).markDirty t)) [] :=
    move_setPage hp hf (.mark howns) ((id_markDirty _ _).trans (hp id f hf).2)
  have hpage := page_setPage hp hf ((p.page f).markDirty t)
  have hid : ((p.setPage f ((p.page f).markDirty t)).page f).id = id := by
    rw [hpage, id_markDirty]
    exact (hp id f hf).2
  have hcached : (p.setPage f ((p.page f).markDirty t)).buffer.isCached id = true := by
    have hsome : ((p.setPage f ((p.page f).markDirty t)).buffer.cached? id).isSome = true := by
      rw [show (p.setPage f ((p.page f).markDirty t)).buffer.cached? id = some f from hf]
      rfl
    exact hsome
  refine ⟨(p.setPage f ((p.page f).markDirty t)).withBuffer
    ((p.setPage f ((p.page f).markDirty t)).buffer.enter id f), ?_, ?_, rfl, ?_⟩
  · simp only [track, Act.on_bind, Act.on_modify, Act.on_get, hid, hcached, if_true, Act.on_set]
  · exact (Buffer.cached?_enter _ id f id).trans (if_pos rfl)
  · refine ⟨hmark.framed.enter (hmark.framed id f hf).1 hid, ?_, Or.inr fun h => h.withBuffer _⟩
    refine .revise id (p.page f) ((p.page f).markDirty t) [] (Buffer.cachedPage?_of_cached hf)
      (.mark howns) rfl fun q => ?_
    have henter := Buffer.cachedPage?_enter (p.setPage f ((p.page f).markDirty t)).buffer id f q
    have hset := Buffer.cachedPage?_setPage hp hf ((p.page f).markDirty t) q
    apply henter.trans
    by_cases hq : q = id
    · rw [if_pos hq, if_pos hq]
      exact congrArg some hpage
    · rw [if_neg hq, if_neg hq]
      rw [if_neg hq] at hset
      exact hset

/-! ## How the actions come out -/

/-- A fetch finds the page in the cache, or reads it and makes room for it, and never faults. -/
inductive Fetched (p : Pool) (id : PageId) : Checked (Except Error FrameId) × Pool → Prop
  | hit (f : FrameId) (hf : p.buffer.cached? id = some f) :
      Fetched p id (.ok (.ok f), p.withBuffer (p.buffer.touch id))
  | unread (e : Error) (hnone : p.buffer.cached? id = none)
      (hread : (readPage id).on p = (.ok (.error e), p)) : Fetched p id (.ok (.error e), p)
  | noRoom (page : Page) (disk : Disk) (e : Error) (hnone : p.buffer.cached? id = none)
      (hread : (readPage id).on p = (.ok (.ok page), p.withDisk disk))
      (hdisk : SameFiles p.disk disk)
      (hadd : (p.buffer.load page).2.add id (p.buffer.load page).1 = .error e) :
      Fetched p id (.ok (.error e), p.withDisk disk)
  | miss (page : Page) (disk : Disk) (b : Buffer) (hnone : p.buffer.cached? id = none)
      (hread : (readPage id).on p = (.ok (.ok page), p.withDisk disk))
      (hdisk : SameFiles p.disk disk) (himage : p.disk.image? id = some page.image)
      (hclean : page = Page.clean id page.image)
      (hadd : (p.buffer.load page).2.add id (p.buffer.load page).1 = .ok b) :
      Fetched p id (.ok (.ok (p.buffer.load page).1), (p.withDisk disk).withBuffer b)

theorem fetched (id : PageId) (p : Pool) : Fetched p id ((fetch id).on p) := by
  rw [on_fetch]
  cases hcached : p.buffer.cached? id with
  | some f => exact .hit f hcached
  | none =>
    have hread := on_readPage id p
    cases hlookup : p.disk.lookup id.table with
    | error e =>
      rw [hlookup] at hread
      rw [hread]
      exact .unread e hcached hread
    | ok store =>
      rw [hlookup] at hread
      simp only at hread
      cases hstore : store.read id with
      | error e =>
        rw [hstore] at hread
        rw [hread]
        exact .unread e hcached hread
      | ok found =>
        obtain ⟨page, store'⟩ := found
        rw [hstore] at hread
        rw [hread]
        obtain ⟨himage, hclean, -, hsame⟩ := read_eq_ok (store?_of_lookup hlookup).1 hstore
        have hbuffer : (p.withDisk (p.disk.put id.table store')).buffer = p.buffer := rfl
        simp only [hbuffer]
        cases hadd : (p.buffer.load page).2.add id (p.buffer.load page).1 with
        | error e => exact .noRoom page _ e hcached hread hsame hadd
        | ok b => exact .miss page _ b hcached hread hsame himage hclean hadd

/-- Whatever becomes of a fetch, only pages at rest have come into the cache or left it. -/
theorem fetch_shuffled {x : Checked (Except Error FrameId)} (hp : p.buffer.Framed)
    (h : (fetch id).on p = (x, p')) :
    p'.buffer.Framed ∧ SameFiles p.disk p'.disk ∧ p'.journal = p.journal ∧
      ∀ q, p'.cachedPage? q = p.cachedPage? q ∨
        p.Rests q ∧ (p'.cachedPage? q = none ∨
          ∃ img, p.disk.image? q = some img ∧ p'.cachedPage? q = some (Page.clean q img)) := by
  have hfetched := fetched id p
  rw [h] at hfetched
  cases hfetched with
  | hit f hf =>
    exact ⟨hp.congr rfl rfl, SameFiles.refl _, rfl,
      fun q => Or.inl (Buffer.cachedPage?_congr rfl rfl q)⟩
  | unread => exact ⟨hp, SameFiles.refl _, rfl, fun q => Or.inl rfl⟩
  | noRoom page disk e hnone hread hdisk hadd => exact ⟨hp, hdisk, rfl, fun q => Or.inl rfl⟩
  | miss page disk b hnone hread hdisk himage hclean hadd =>
    have hload : (p.buffer.load page).2.page (p.buffer.load page).1 = page := by
      rw [Buffer.page_load]
      exact if_pos rfl
    have hadded := (Buffer.added_of_add (hp.load page) (by simp [Buffer.load])
      (hload.symm ▸ (by rw [hclean]; rfl)) hadd).1
    refine ⟨hadded.framed, hdisk, rfl, fun q => ?_⟩
    by_cases hq : q = id
    · subst hq
      refine Or.inr ⟨fun old hold => ?_, Or.inr ⟨page.image, himage, ?_⟩⟩
      · rw [cachedPage?, Buffer.cachedPage?_eq_none.mpr hnone] at hold
        cases hold
      · exact hadded.cached.trans (congrArg some (hload.trans hclean))
    · have hold := Buffer.cachedPage?_load hp page q
      rcases hadded.others q hq with hsame | ⟨hgone, old, hcached, hrested⟩
      · exact Or.inl (hsame.trans hold)
      · refine Or.inr ⟨fun page' hpage' => ?_, Or.inl hgone⟩
        exact Option.some.inj ((hold.symm.trans hcached).symm.trans hpage') ▸ hrested

/-- A tracked frame is the cached one already, or takes another one's place, or comes back. -/
inductive Tracked (p : Pool) (f : FrameId) (t : TxnId) : Checked (Except Error Unit) × Pool → Prop
  | again (hid : p.buffer.isCached (p.page f).id = true) :
      Tracked p f t (.ok (.ok ()), (p.setPage f ((p.page f).markDirty t)).withBuffer
        ((p.buffer.setPage f ((p.page f).markDirty t)).enter (p.page f).id f))
  | back (b : Buffer) (hid : p.buffer.isCached (p.page f).id = false)
      (hadd : (p.buffer.setPage f ((p.page f).markDirty t)).add (p.page f).id f = .ok b) :
      Tracked p f t (.ok (.ok ()), (p.setPage f ((p.page f).markDirty t)).withBuffer b)
  | noRoom (e : Error) (hid : p.buffer.isCached (p.page f).id = false)
      (hadd : (p.buffer.setPage f ((p.page f).markDirty t)).add (p.page f).id f = .error e) :
      Tracked p f t (.ok (.error e), p.setPage f ((p.page f).markDirty t))

theorem tracked (f : FrameId) (t : TxnId) (p : Pool) : Tracked p f t ((track f t).on p) := by
  have hid : ((p.setPage f ((p.page f).markDirty t)).page f).id = (p.page f).id :=
    Buffer.id_setPage (id_markDirty _ _) f
  simp only [track, Act.on_bind, Act.on_modify, Act.on_get, hid]
  split
  case isTrue hcached => exact .again hcached
  case isFalse hcached =>
    rw [Bool.not_eq_true] at hcached
    simp only [Act.on_bind, Act.on_ofResult]
    cases hadd : (p.setPage f ((p.page f).markDirty t)).buffer.add (p.page f).id f with
    | error e => exact .noRoom e hcached hadd
    | ok b => exact .back b hcached hadd

/-- A fetched page is cached in the frame that the fetch tells. -/
theorem cached?_of_fetch {p' : Pool} (hp : p.buffer.Framed)
    (h : (fetch id).on p = (.ok (.ok f), p')) : p'.buffer.cached? id = some f := by
  have hfetched := fetched id p
  rw [h] at hfetched
  cases hfetched with
  | hit _ hf => exact hf
  | miss page disk b hnone _ _ _ hclean hadd =>
    have hpage : (p.buffer.load page).2.page (p.buffer.load page).1 = page := by
      rw [Buffer.page_load]
      exact if_pos rfl
    have hid : ((p.buffer.load page).2.page (p.buffer.load page).1).id = id := by
      rw [hpage, hclean]
      rfl
    exact (Buffer.added_of_add (hp.load page) (by simp [Buffer.load]) hid hadd).2

end Pool

end PagedHeap
