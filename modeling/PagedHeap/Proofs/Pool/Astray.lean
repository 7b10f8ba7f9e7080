import PagedHeap.Proofs.Pool.Placed
import PagedHeap.Proofs.Pool.WriteAhead

/-!
# Frames in and out of the cache

A frame that was changed may leave the cache and come back, and in between its page may be read into
another frame.  A frame is safe while its file holds what it held when it was last clean, and no
other copy of its page in the cache has changes.  Whatever is done to the pages of others, a safe
frame stays safe and keeps its content.
-/

namespace PagedHeap

namespace Buffer

variable {b b' : Buffer} {id q : PageId} {f g : FrameId}

theorem cached?_of_enter (h : (b.enter id f).cached? q = some g) :
    q = id ∧ g = f ∨ b.cached? q = some g := by
  rw [cached?_enter] at h
  split at h
  case isTrue heq => exact Or.inl ⟨heq.symm, (Option.some.inj h).symm⟩
  case isFalse => exact Or.inr h

theorem cached?_of_discard (h : (b.discard id).cached? q = some g) : b.cached? q = some g := by
  rw [cached?_discard] at h
  split at h
  · cases h
  · exact h

/-- A frame that is cached after one was added is that one, or had been cached before. -/
theorem cached?_of_add (hadd : b.add id f = .ok b') (h : b'.cached? q = some g) :
    q = id ∧ g = f ∨ b.cached? q = some g := by
  rcases eq_of_add hadd with rfl | ⟨victim, -, rfl⟩
  · exact cached?_of_enter h
  · exact (cached?_of_enter h).imp_right cached?_of_discard

theorem cached?_add_self (hadd : b.add id f = .ok b') : b'.cached? id = some f := by
  rcases eq_of_add hadd with rfl | ⟨victim, -, rfl⟩
  · rw [cached?_enter, if_pos rfl]
  · rw [cached?_enter, if_pos rfl]

end Buffer

namespace Pool

open Disk

variable {mine mine' : PageId → Prop} {p p' p'' : Pool} {f g : FrameId} {id q : PageId} {t : TxnId}
  {new : Page}

/-- The file holds what the frame held when it was last clean, unless page numbers are used up. -/
def Lies (p : Pool) (f : FrameId) : Prop :=
  p.disk.Roomy → p.disk.image? (p.page f).id = some (p.page f).underlying

structure Rooted (p : Pool) : Prop where
  framed : p.buffer.Framed
  listed : p.buffer.Listed
  placed : p.disk.Placed
  lies : ∀ id f, p.buffer.cached? id = some f → p.Lies f

structure Safe (p : Pool) (f : FrameId) : Prop where
  present : f.number < p.buffer.frames.size
  lies : p.Lies f
  /-- No other copy of the page has changes. -/
  alone : ∀ g, p.buffer.cached? (p.page f).id = some g → g ≠ f → (p.page g).dirtier = none

/-- The frame has the page and the content that it had. -/
structure Unchanged (f : FrameId) (p p' : Pool) : Prop where
  id : (p'.page f).id = (p.page f).id
  image : (p'.page f).image = (p.page f).image

theorem Unchanged.trans (h : Unchanged f p p') (h' : Unchanged f p' p'') : Unchanged f p p'' :=
  ⟨h'.id.trans h.id, h'.image.trans h.image⟩

theorem unchanged_of_page_eq (h : p'.page f = p.page f) : Unchanged f p p' :=
  ⟨congrArg Page.id h, congrArg Page.image h⟩

theorem Rooted.page_id (hp : p.Rooted) (hf : p.buffer.cached? id = some f) : (p.page f).id = id :=
  (hp.framed id f hf).2

/-- A cached frame is the only copy of its page in the cache. -/
theorem Rooted.safe (hp : p.Rooted) (hf : p.buffer.cached? id = some f) : p.Safe f where
  present := (hp.framed id f hf).1
  lies := hp.lies id f hf
  alone g hg hne := by
    rw [hp.page_id hf] at hg
    exact absurd (Option.some.inj (hg.symm.trans hf)) hne

/-- What becomes of a pool in which nobody changes a page but those that are his. -/
structure Respects (mine : PageId → Prop) (p p' : Pool) : Prop where
  capacity : p'.buffer.capacity = p.buffer.capacity
  pages_le : ∀ table, p.disk.pages table ≤ p'.disk.pages table
  rooted : p.Rooted → p'.Rooted
  safe : p.Rooted → ∀ f, p.Safe f → ¬ mine (p.page f).id → p'.Safe f ∧ Unchanged f p p'

namespace Respects

theorem refl (p : Pool) : Respects mine p p :=
  ⟨rfl, fun _ => Nat.le_refl _, id, fun _ _ hf _ => ⟨hf, rfl, rfl⟩⟩

theorem trans (h : Respects mine p p') (h' : Respects mine p' p'') : Respects mine p p'' where
  capacity := h'.capacity.trans h.capacity
  pages_le table := Nat.le_trans (h.pages_le table) (h'.pages_le table)
  rooted hp := h'.rooted (h.rooted hp)
  safe hp f hf hmine := by
    obtain ⟨hf₁, hsame⟩ := h.safe hp f hf hmine
    obtain ⟨hf₂, hsame'⟩ := h'.safe (h.rooted hp) f hf₁ (hsame.id.symm ▸ hmine)
    exact ⟨hf₂, hsame.trans hsame'⟩

theorem mono (h : Respects mine p p') (hle : ∀ id, mine id → mine' id) : Respects mine' p p' :=
  ⟨h.capacity, h.pages_le, h.rooted, fun hp f hf hmine => h.safe hp f hf (mt (hle _) hmine)⟩

end Respects

theorem Lies.keep (h : p.Lies f) (hp : p.disk.Placed) (hdisk : p.disk.Keeps p'.disk)
    (hid : (p'.page f).id = (p.page f).id)
    (hunderlying : (p'.page f).underlying = (p.page f).underlying) : p'.Lies f := by
  intro hroom
  rw [hid, hunderlying]
  exact hdisk.image? hp hroom _ _ (h (hroom.of_le hdisk.pages_le))

/-- No frame is changed, and a frame that comes into the cache is clean or its page is mine. -/
theorem respects_of_calm (hcapacity : p'.buffer.capacity = p.buffer.capacity)
    (hdisk : p.disk.Keeps p'.disk)
    (hframes : ∀ f, f.number < p.buffer.frames.size →
      f.number < p'.buffer.frames.size ∧ p'.page f = p.page f)
    (hbuffer : p.Rooted → p'.buffer.Framed ∧ p'.buffer.Listed ∧
      ∀ id g, p'.buffer.cached? id = some g → p.buffer.cached? id = some g ∨
        p'.Lies g ∧ ((p'.page g).dirtier = none ∨ mine (p'.page g).id)) : Respects mine p p' where
  capacity := hcapacity
  pages_le := hdisk.pages_le
  rooted hp := by
    obtain ⟨hframed, hlisted, hcached⟩ := hbuffer hp
    refine ⟨hframed, hlisted, hdisk.placed hp.placed, fun id g hg => ?_⟩
    rcases hcached id g hg with hold | ⟨hlies, -⟩
    · have hpage := (hframes g (hp.framed id g hold).1).2
      exact (hp.lies id g hold).keep hp.placed hdisk (by rw [hpage]) (by rw [hpage])
    · exact hlies
  safe hp f hf hmine := by
    obtain ⟨hframed, -, hcached⟩ := hbuffer hp
    obtain ⟨hpresent, hpage⟩ := hframes f hf.present
    refine ⟨⟨hpresent, hf.lies.keep hp.placed hdisk (by rw [hpage]) (by rw [hpage]),
      fun g hg hne => ?_⟩, unchanged_of_page_eq hpage⟩
    have hid : (p'.page g).id = (p'.page f).id := (hframed _ g hg).2
    rw [hpage] at hg hid
    rcases hcached _ g hg with hold | ⟨-, hclean | hhis⟩
    · rw [(hframes g (hp.framed _ g hold).1).2]
      exact hf.alone g hold hne
    · exact hclean
    · exact absurd (hid ▸ hhis) hmine

/-- Only what lies below the buffer is changed. -/
theorem respects_of_disk (hbuffer : p'.buffer = p.buffer) (hdisk : p.disk.Keeps p'.disk) :
    Respects mine p p' := by
  refine respects_of_calm (by rw [hbuffer]) hdisk (fun f hf => ⟨by rwa [hbuffer], ?_⟩) fun hp => ?_
  · rw [page, page, hbuffer]
  · rw [hbuffer]
    exact ⟨hp.framed, hp.listed, fun id g hg => Or.inl hg⟩

theorem respects_withJournal (p : Pool) (journal : Journal) :
    Respects mine p (p.withJournal journal) :=
  respects_of_disk rfl (SameContents.refl _).keeps

/-- Pages leave the cache, or are named by others. -/
theorem respects_of_frames (hcapacity : p'.buffer.capacity = p.buffer.capacity)
    (hdisk : p'.disk = p.disk) (hframes : p'.buffer.frames = p.buffer.frames)
    (hlisted : p.buffer.Listed → p'.buffer.Listed)
    (hcached : ∀ id g, p'.buffer.cached? id = some g → p.buffer.cached? id = some g) :
    Respects mine p p' := by
  have hpage : ∀ f, p'.page f = p.page f := fun f => by
    rw [page, page, Buffer.page, Buffer.page, hframes]
  refine respects_of_calm hcapacity (hdisk ▸ (SameContents.refl _).keeps)
    (fun f hf => ⟨by rwa [hframes], hpage f⟩) fun hp => ⟨fun id g hg => ?_, hlisted hp.listed,
      fun id g hg => Or.inl (hcached id g hg)⟩
  obtain ⟨hlt, hid⟩ := hp.framed id g (hcached id g hg)
  exact ⟨by rwa [hframes], (congrArg Page.id (hpage g)).trans hid⟩

theorem respects_discard (p : Pool) (id : PageId) : Respects mine p (p.discard id) := by
  refine respects_of_frames (Buffer.capacity_discard _ _) rfl (Buffer.frames_discard _ _)
    (fun h => h.discard id) fun q g hg => ?_
  exact Buffer.cached?_of_discard hg

theorem respects_holders (p : Pool) (holders : SortedMap Holder FrameId) :
    Respects mine p (p.withBuffer { p.buffer with holders }) :=
  respects_of_frames rfl rfl rfl (fun h => h.congr rfl rfl rfl) fun _ _ hg => hg

theorem respects_forget (p : Pool) (ids : List PageId) : Respects mine p (p.forget ids) := by
  induction ids generalizing p with
  | nil => exact .refl p
  | cons id rest ih => exact (respects_discard p id).trans (ih (p.discard id))

/-! ## Fetching and appending -/

theorem respects_fetch (id : PageId) (p : Pool) : Respects mine p ((fetch id).on p).2 := by
  have hfetched := fetched id p
  have hreshaped := fun f p' (h : (fetch id).on p = (.ok (.ok f), p')) (hp : p.Rooted) =>
    (Does.fetch h : Does True (fun _ _ => True) _ _ _).reshaped hp.framed
  generalize (fetch id).on p = x at hfetched hreshaped ⊢
  cases hfetched with
  | unread _ _ _ => exact .refl p
  | noRoom page disk e _ _ hdisk _ => exact respects_of_disk rfl hdisk.sameContents.keeps
  | hit f hf =>
    refine respects_of_frames rfl rfl rfl (fun hlisted => ?_) fun _ _ hg => hg
    exact hlisted.touch (Buffer.isCached_iff.mpr ⟨f, hf⟩)
  | miss page disk b hnone _ hdisk himage hclean hadd =>
    have hkeeps : p.disk.Keeps disk := hdisk.sameContents.keeps
    have hframes : b.frames = (p.buffer.load page).2.frames := Buffer.frames_add hadd
    have hpage : ∀ f, b.page f = if f.number = p.buffer.frames.size then page else p.page f := by
      intro f
      rw [Buffer.page, hframes]
      exact Buffer.page_load p.buffer page f
    refine respects_of_calm (Buffer.capacity_add hadd :) hkeeps (fun f hf => ⟨?_, ?_⟩) fun hp => ?_
    · change f.number < b.frames.size
      rw [hframes, Buffer.load, Array.size_push]
      exact Nat.lt_succ_of_lt hf
    · exact (hpage f).trans (if_neg (Nat.ne_of_lt hf))
    · have hresh := hreshaped _ _ rfl hp
      refine ⟨hresh.framed hp.framed, (hresh.after hp.framed hp.listed).1, fun q g hg => ?_⟩
      rcases Buffer.cached?_of_add hadd hg with ⟨-, rfl⟩ | hold
      · have hnew : b.page (p.buffer.load page).1 = page := (hpage _).trans (if_pos rfl)
        refine Or.inr ⟨fun hroom => ?_, Or.inl ?_⟩
        · change disk.image? (b.page (p.buffer.load page).1).id =
            some (b.page (p.buffer.load page).1).underlying
          rw [hnew, hclean]
          exact hkeeps.image? hp.placed hroom _ _ himage
        · change (b.page (p.buffer.load page).1).dirtier = none
          rw [hnew, hclean]
          rfl
      · exact Or.inl hold

theorem respects_append (table : TableId) (p : Pool) :
    Respects mine p ((appendPage table).on p).2 := by
  simp only [appendPage, Act.on_bind, Act.on_get]
  cases hs : p.disk.store? table with
  | none => exact .refl p
  | some s =>
    simp only [Act.on_bind, Act.on_ofResult]
    cases happend : s.append with
    | error e => exact .refl p
    | ok appended => exact respects_of_disk rfl (keeps_append hs happend)

/-! ## Changing a frame -/

theorem Safe.setPage (hf : p.Safe f) (hid : new.id = (p.page f).id)
    (hunderlying : new.underlying = (p.page f).underlying) : (p.setPage f new).Safe f := by
  have hpage : ∀ g, (p.setPage f new).page g = if f = g then new else p.page g :=
    Buffer.page_setPage hf.present new
  have hself : (p.setPage f new).page f = new := (hpage f).trans (if_pos rfl)
  refine ⟨?_, fun hroom => ?_, fun g hg hne => ?_⟩
  · change f.number < (p.buffer.setPage f new).frames.size
    rw [Buffer.setPage, Array.size_setIfInBounds]
    exact hf.present
  · rw [hself, hid, hunderlying]
    exact hf.lies hroom
  · rw [hself, hid] at hg
    rw [hpage, if_neg (Ne.symm hne)]
    exact hf.alone g hg hne

/-- A page of mine is changed, and has its baseline as before. -/
theorem respects_setPage (hf : f.number < p.buffer.frames.size) (hid : new.id = (p.page f).id)
    (hunderlying : new.underlying = (p.page f).underlying) (hmine : mine (p.page f).id) :
    Respects mine p (p.setPage f new) := by
  have hpage : ∀ g, (p.setPage f new).page g = if f = g then new else p.page g :=
    Buffer.page_setPage hf new
  refine ⟨rfl, fun _ => Nat.le_refl _, fun hp => ⟨hp.framed.revise hid, hp.listed.congr rfl rfl rfl,
    hp.placed, fun q g hg => ?_⟩, fun hp g hg hnot => ?_⟩
  · by_cases heq : f = g
    · subst heq
      exact ((hp.safe hg).setPage hid hunderlying).lies
    · refine (hp.lies q g hg).keep hp.placed (SameContents.refl _).keeps ?_ ?_
      · rw [hpage, if_neg heq]
      · rw [hpage, if_neg heq]
  · have hne : f ≠ g := fun heq => hnot (heq ▸ hmine)
    have hsame : (p.setPage f new).page g = p.page g := (hpage g).trans (if_neg hne)
    refine ⟨⟨?_, ?_, fun g' hg' hne' => ?_⟩, unchanged_of_page_eq hsame⟩
    · change g.number < (p.buffer.setPage f new).frames.size
      rw [Buffer.setPage, Array.size_setIfInBounds]
      exact hg.present
    · exact hg.lies.keep hp.placed (SameContents.refl _).keeps (by rw [hsame]) (by rw [hsame])
    · rw [hsame] at hg'
      have hother : f ≠ g' := by
        rintro rfl
        have hshared : (p.page f).id = (p.page g).id := hp.page_id hg'
        exact hnot (hshared ▸ hmine)
      rw [hpage, if_neg hother]
      exact hg.alone g' hg' hne'

theorem respects_change (hf : f.number < p.buffer.frames.size) (hmine : mine (p.page f).id)
    (t : TxnId) (img : Image) :
    Respects mine p (p.setPage f (((p.page f).markDirty t).withImage img)) :=
  respects_setPage hf (id_markDirty _ t) (Page.underlying_markDirty _ t img) hmine

theorem respects_placeRow (hf : f.number < p.buffer.frames.size) (hmine : mine (p.page f).id)
    (t : TxnId) (row : Row) : Respects mine p ((placeRow f t row).on p).2 := by
  have hself : Respects mine p (p.setPage f (p.page f)) := by
    rw [setPage_self]
    exact .refl p
  rw [on_placeRow]
  cases (p.page f).hasRoom row.length with
  | error fault => exact hself
  | ok room =>
    cases room with
    | false => exact hself
    | true => exact respects_change hf hmine t _

theorem respects_removeRow (hf : f.number < p.buffer.frames.size) (hmine : mine (p.page f).id)
    (t : TxnId) (slot : SlotId) : Respects mine p ((removeRow f t slot).on p).2 := by
  have hself : Respects mine p (p.setPage f (p.page f)) := by
    rw [setPage_self]
    exact .refl p
  rw [on_removeRow]
  rcases (p.page f).row slot with fault | e | old
  · exact hself
  · exact hself
  · exact respects_change hf hmine t _

/-! ## Writing back -/

/-- The pool after the page in a frame was written to the files. -/
def written (p : Pool) (f : FrameId) (new : Page) (disk : Disk) (journal : Journal) : Pool :=
  (⟨p.buffer, disk, journal⟩ : Pool).setPage f new

section Written

variable {disk : Disk}

theorem page_written (hlt : f.number < p.buffer.frames.size) (new : Page) (disk : Disk)
    (journal : Journal) (g : FrameId) :
    (p.written f new disk journal).page g = if f = g then new else p.page g :=
  Buffer.page_setPage hlt new g

theorem size_written (p : Pool) (f : FrameId) (new : Page) (disk : Disk) (journal : Journal) :
    (p.written f new disk journal).buffer.frames.size = p.buffer.frames.size := by
  change (p.buffer.setPage f new).frames.size = _
  rw [Buffer.setPage, Array.size_setIfInBounds]

/-- The written page lies in its file as it is now. -/
theorem lies_written (hp : p.Rooted) (hf : p.buffer.cached? id = some f)
    (hnew : Cleaned (p.page f) new) (hdisk : p.disk.Rewrites disk (p.page f).id (p.page f).image)
    (journal : Journal) : (p.written f new disk journal).Lies f := by
  intro hroom
  have hold := hp.lies id f hf (hroom.of_le hdisk.pages_le)
  rw [page_written (hp.framed id f hf).1, if_pos rfl, hnew.id, hnew.underlying]
  exact (hdisk.image? hp.placed _ hold _).trans (if_pos rfl)

/-- The other pages lie in theirs as they did. -/
theorem lies_written_of_ne (hp : p.Rooted) (hf : p.buffer.cached? id = some f)
    (hdisk : p.disk.Rewrites disk (p.page f).id (p.page f).image) (journal : Journal)
    (hg : p.Lies g) (hne : f ≠ g) (hid : (p.page g).id ≠ (p.page f).id) :
    (p.written f new disk journal).Lies g := by
  intro hroom
  have hroom' : p.disk.Roomy := hroom.of_le hdisk.pages_le
  rw [page_written (hp.framed id f hf).1, if_neg hne]
  exact ((hdisk.image? hp.placed _ (hp.lies id f hf hroom') _).trans (if_neg hid)).trans (hg hroom')

theorem rooted_written (hp : p.Rooted) (hf : p.buffer.cached? id = some f)
    (hnew : Cleaned (p.page f) new) (hdisk : p.disk.Rewrites disk (p.page f).id (p.page f).image)
    (journal : Journal) : (p.written f new disk journal).Rooted := by
  refine ⟨hp.framed.revise hnew.id, hp.listed.congr rfl rfl rfl, hdisk.placed hp.placed,
    fun q g hg => ?_⟩
  by_cases hne : f = g
  · exact hne ▸ lies_written hp hf hnew hdisk journal
  · refine lies_written_of_ne hp hf hdisk journal (hp.lies q g hg) hne fun hid => hne ?_
    rw [hp.page_id hg, hp.page_id hf] at hid
    exact Option.some.inj (hf.symm.trans (hid ▸ hg))

/-- The written page becomes clean.  It had changes, so it is no copy of another safe frame. -/
theorem safe_written (hp : p.Rooted) (hf : p.buffer.cached? id = some f)
    (hdirty : (p.page f).dirtier = some t) (hnew : Cleaned (p.page f) new)
    (hdisk : p.disk.Rewrites disk (p.page f).id (p.page f).image) (journal : Journal)
    (hg : p.Safe g) :
    (p.written f new disk journal).Safe g ∧ Unchanged g p (p.written f new disk journal) := by
  have hpage := page_written (hp.framed id f hf).1 new disk journal
  have hpresent : g.number < (p.written f new disk journal).buffer.frames.size := by
    rw [size_written]
    exact hg.present
  by_cases hne : f = g
  · subst hne
    have hself : (p.written f new disk journal).page f = new := (hpage f).trans (if_pos rfl)
    refine ⟨⟨hpresent, lies_written hp hf hnew hdisk journal, fun g' hg' hne' => ?_⟩, ?_, ?_⟩
    · rw [hself, hnew.id] at hg'
      rw [hpage, if_neg (Ne.symm hne')]
      exact hg.alone g' hg' hne'
    · rw [hself, hnew.id]
    · rw [hself, hnew.image]
  · have hsame : (p.written f new disk journal).page g = p.page g := (hpage g).trans (if_neg hne)
    have hid : (p.page g).id ≠ (p.page f).id := fun hid => by
      have hclean := hg.alone f (hid ▸ (hp.page_id hf).symm ▸ hf) hne
      rw [hdirty] at hclean
      cases hclean
    refine ⟨⟨hpresent, lies_written_of_ne hp hf hdisk journal hg.lies hne hid,
      fun g' hg' hne' => ?_⟩, unchanged_of_page_eq hsame⟩
    rw [hsame] at hg'
    have hother : f ≠ g' := fun heq => hid ((hp.page_id hg').symm.trans (by rw [heq]))
    rw [hpage, if_neg hother]
    exact hg.alone g' hg' hne'

theorem respects_written (hf : p.buffer.cached? id = some f)
    (hdirty : (p.page f).dirtier = some t) (hnew : Cleaned (p.page f) new)
    (hdisk : p.disk.Rewrites disk (p.page f).id (p.page f).image) (journal : Journal) :
    Respects mine p (p.written f new disk journal) where
  capacity := rfl
  pages_le := hdisk.pages_le
  rooted hp := rooted_written hp hf hnew hdisk journal
  safe hp _ hg _ := safe_written hp hf hdirty hnew hdisk journal hg

end Written

theorem respects_writeBack (hf : p.buffer.cached? id = some f)
    (hdirty : (p.page f).dirtier = some t) (hnew : Cleaned (p.page f) new) :
    let x := (writeBack (p.page f) >>= fun _ => modify fun p => p.setPage f new).on p
    Respects mine p x.2 := by
  simp only [Act.on_bind]
  rcases writeBack_any (p.page f) p with
    ⟨e, journal, hon, -⟩ | ⟨store, store', -, hlookup, hwrite, hon⟩
  · rw [hon]
    exact respects_withJournal p journal
  · rw [hon]
    exact respects_written hf hdirty hnew
      (rewrites_put (store?_of_lookup hlookup).1 hwrite) _

theorem respects_flush (hf : p.buffer.cached? id = some f) :
    Respects mine p ((flush f).on p).2 := by
  simp only [flush, Act.on_bind, Act.on_get]
  split
  case isFalse => exact .refl p
  case isTrue hdirty =>
    obtain ⟨t, ht⟩ := Option.isSome_iff_exists.mp hdirty
    exact respects_writeBack hf ht (cleaned_markClean (p.page f))

/-- Actions one after the other that leave the cache as it is. -/
theorem respects_forM {α : Type} {act : α → Act Pool Unit} (good : Pool → α → Prop)
    (hkeep : ∀ p p' a, (∀ q, p'.buffer.cached? q = p.buffer.cached? q) → good p a → good p' a)
    (hact : ∀ p a, good p a → Respects mine p ((act a).on p).2 ∧
      ∀ q, ((act a).on p).2.buffer.cached? q = p.buffer.cached? q)
    (l : List α) (hgood : ∀ a ∈ l, good p a) : Respects mine p ((l.forM act).on p).2 :=
  (forM_rel
    (R := fun p p' => Respects mine p p' ∧ ∀ q, p'.buffer.cached? q = p.buffer.cached? q)
    (fun p => ⟨.refl p, fun _ => rfl⟩)
    (fun _ _ _ h h' => ⟨h.1.trans h'.1, fun q => (h'.2 q).trans (h.2 q)⟩)
    (fun p p' a h => hkeep p p' a h.2) hact l hgood).1

theorem cached?_flush (hf : p.buffer.cached? id = some f) (q : PageId) :
    ((flush f).on p).2.buffer.cached? q = p.buffer.cached? q :=
  (flush_leadsTo hf : LeadsTo True (Deed.OfUpkeep fun _ _ => True) _ _ _ ∧ _).2 q

theorem respects_flushAll (p : Pool) : Respects mine p (flushAll.on p).2 := by
  simp only [flushAll, Act.on_bind, Act.on_get]
  refine respects_forM (fun p f => ∃ id, p.buffer.cached? id = some f)
    (fun p p' f hsame hf => hf.imp fun id => (hsame id).trans)
    (fun p f hf => ?_) p.buffer.cache.values fun f hf => ?_
  · obtain ⟨id, hf⟩ := hf
    exact ⟨respects_flush hf, cached?_flush hf⟩
  · obtain ⟨⟨id, f'⟩, hentry, rfl⟩ := List.mem_map.mp hf
    exact ⟨id, SortedMap.get?_eq_some.mpr hentry⟩

theorem respects_flushPage (id : PageId) (p : Pool) : Respects mine p ((flushPage id).on p).2 := by
  simp only [flushPage, Act.on_bind, Act.on_get]
  cases hf : p.buffer.cached? id with
  | none => exact .refl p
  | some f => exact respects_flush hf

theorem respects_flushOwned (t : TxnId) (ids : List PageId) (p : Pool) :
    Respects mine p ((flushOwned t ids).on p).2 := by
  refine respects_forM (fun _ _ => True) (fun _ _ _ _ h => h) (fun p id _ => ?_) ids
    fun _ _ => trivial
  simp only [Act.on_bind, Act.on_get]
  cases hf : p.buffer.cached? id with
  | none => exact ⟨.refl p, fun _ => rfl⟩
  | some f =>
    simp only
    split
    case isTrue => exact ⟨respects_flush hf, cached?_flush hf⟩
    case isFalse => exact ⟨.refl p, fun _ => rfl⟩

theorem respects_settlePage (t : TxnId) (id : PageId) (p : Pool) :
    Respects mine p ((settlePage t id).on p).2 := by
  simp only [settlePage, Act.on_bind, Act.on_get]
  cases hf : p.buffer.cached? id with
  | none => exact .refl p
  | some f =>
    simp only
    split
    case isTrue hdirty => exact respects_writeBack hf hdirty (cleaned_rebase (p.page f))
    case isFalse => exact .refl p

theorem respects_settle (t : TxnId) (ids : List PageId) (p : Pool) :
    Respects mine p ((settle t ids).on p).2 := by
  induction ids generalizing p with
  | nil => exact .refl p
  | cons id rest ih =>
    have hfirst : Respects mine p ((settlePage t id).on p).2 := respects_settlePage t id p
    simp only [settle, Act.on_bind, Act.on_attempt]
    generalize (settlePage t id).on p = x at hfirst ⊢
    rcases x with ⟨fault | e | u, p₁⟩
    · exact hfirst
    · have hdropped := hfirst.trans ((respects_discard p₁ id).trans (ih (p₁.discard id)))
      simp only [Except.map, Act.on_bind, Act.on_modify]
      generalize (settle t rest).on (p₁.discard id) = y at hdropped ⊢
      rcases y with ⟨fault | e' | failures, p₂⟩
      · exact hdropped
      · exact hdropped
      · exact hdropped
    · exact hfirst.trans (ih p₁)

/-! ## Coming back -/

/-- The frame is cached for its page as the most recently used one, with the content that it was
given and marked by the transaction, and its file holds its baseline, unless page numbers are used
up. -/
structure Readmitted (p' : Pool) (t : TxnId) (f : FrameId) (id : PageId) (img : Image) : Prop where
  newest : p'.buffer.order.getLast? = some id
  cached : p'.buffer.cached? id = some f
  page_id : (p'.page f).id = id
  image : (p'.page f).image = img
  dirtier : (p'.page f).dirtier = some t
  baseline : p'.disk.Roomy → p'.disk.image? id = some (p'.page f).baseline
  size_le : p'.buffer.size ≤ p'.buffer.capacity

/-- The page is not cached, and neither the cache nor the files have changed. -/
structure LeftOut (p p' : Pool) (id : PageId) : Prop where
  absent : p'.buffer.isCached id = false
  cached : ∀ q, p'.cachedPage? q = p.cachedPage? q
  order : p'.buffer.order = p.buffer.order
  files : p'.disk = p.disk

/-- The page in a frame, marked by the transaction. -/
def mark (p : Pool) (f : FrameId) (t : TxnId) : Pool :=
  p.setPage f ((p.page f).markDirty t)

theorem underlying_markDirty (page : Page) (t : TxnId) :
    (page.markDirty t).underlying = page.underlying := by
  have hsame : (page.markDirty t).withImage page.image = page.markDirty t := by
    rw [← image_markDirty page t]
    rfl
  rw [← hsame, Page.underlying_markDirty]

theorem page_mark (hf : f.number < p.buffer.frames.size) (t : TxnId) :
    (p.mark f t).page f = (p.page f).markDirty t :=
  (Buffer.page_setPage hf _ f).trans (if_pos rfl)

theorem Safe.mark (hf : p.Safe f) (t : TxnId) : (p.mark f t).Safe f :=
  hf.setPage (id_markDirty _ t) (underlying_markDirty _ t)

theorem respects_mark (hf : f.number < p.buffer.frames.size) (hmine : mine (p.page f).id)
    (t : TxnId) : Respects mine p (p.mark f t) :=
  respects_setPage hf (id_markDirty _ t) (underlying_markDirty _ t) hmine

/-- The frame came into the cache for its page, and no other frame did. -/
structure Entered (p : Pool) (f : FrameId) (t : TxnId) (b : Buffer) : Prop where
  tracked : (track f t).on p = (.ok (.ok ()), (p.mark f t).withBuffer b)
  frames : b.frames = (p.mark f t).buffer.frames
  self : b.cached? (p.page f).id = some f
  others : ∀ q g, b.cached? q = some g → q = (p.page f).id ∧ g = f ∨ p.buffer.cached? q = some g

theorem track_cases (hp : p.Rooted) (f : FrameId) (t : TxnId) :
    (∃ b, Entered p f t b) ∨
      (track f t).on p = (.ok (.error (.exhausted p.buffer.capacity)), p.mark f t) ∧
        p.buffer.isCached (p.page f).id = false := by
  have htracked := tracked f t p
  rcases hon : (track f t).on p with ⟨x, p'⟩
  rw [hon] at htracked
  cases htracked with
  | again _ =>
    refine Or.inl ⟨_, hon, rfl, ?_, fun q g hg => Buffer.cached?_of_enter hg⟩
    rw [Buffer.cached?_enter, if_pos rfl]
  | back b _ hadd =>
    exact Or.inl ⟨b, hon, Buffer.frames_add hadd, Buffer.cached?_add_self hadd,
      fun q g hg => (Buffer.cached?_of_add hadd hg :)⟩
  | noRoom e hnone hadd =>
    have hlisted : (p.mark f t).buffer.Listed := hp.listed.congr rfl rfl rfl
    have hnot : (p.page f).id ∉ (p.mark f t).buffer.order := fun hmem => by
      rw [(hp.listed.mem_iff _).mp hmem] at hnone
      cases hnone
    rcases hlisted.add_cases hnot f with ⟨b, hadded, -⟩ | ⟨hfull, -⟩
    · cases hadd.symm.trans hadded
    · obtain rfl := Except.error.inj (hadd.symm.trans hfull)
      exact Or.inr ⟨rfl, hnone⟩

namespace Entered

variable {b : Buffer}

theorem page_eq (h : Entered p f t b) (g : FrameId) : b.page g = (p.mark f t).page g := by
  rw [Buffer.page, h.frames]
  rfl

theorem page_self (h : Entered p f t b) (hf : f.number < p.buffer.frames.size) :
    b.page f = (p.page f).markDirty t :=
  (h.page_eq f).trans (page_mark hf t)

theorem reshaped (h : Entered p f t b) (hp : p.Rooted) (hf : f.number < p.buffer.frames.size) :
    p.buffer.Reshaped (.used (p.page f).id) b := by
  have hdoes : Does True (fun _ _ => True) p _ ((p.mark f t).withBuffer b) :=
    .track (Or.inl ⟨trivial, hf⟩) h.tracked
  exact hdoes.reshaped hp.framed

theorem respects (h : Entered p f t b) (hp : p.Rooted) (hf : p.Safe f)
    (hmine : mine (p.page f).id) : Respects mine p ((p.mark f t).withBuffer b) := by
  have hmarked : Respects mine p (p.mark f t) := respects_mark hf.present hmine t
  have hreshaped := h.reshaped hp hf.present
  refine hmarked.trans (respects_of_calm hreshaped.capacity (SameContents.refl _).keeps
    (fun g hg => ⟨h.frames ▸ hg, h.page_eq g⟩) fun hp₁ => ⟨hreshaped.framed hp.framed,
      (hreshaped.after hp.framed hp.listed).1, fun q g hg => ?_⟩)
  rcases h.others q g hg with ⟨-, rfl⟩ | hold
  · refine Or.inr ⟨(hf.mark t).lies.keep hp₁.placed (SameContents.refl _).keeps ?_ ?_, Or.inr ?_⟩
    · exact congrArg Page.id (h.page_eq g)
    · exact congrArg Page.underlying (h.page_eq g)
    · change mine (b.page g).id
      rw [h.page_self hf.present, id_markDirty]
      exact hmine
  · exact Or.inl hold

theorem readmitted (h : Entered p f t b) (hp : p.Rooted) (hf : p.Safe f) :
    Readmitted ((p.mark f t).withBuffer b) t f (p.page f).id (p.page f).image := by
  obtain ⟨hlisted, hafter⟩ := (h.reshaped hp hf.present).after hp.framed hp.listed
  have hself : ((p.mark f t).withBuffer b).page f = (p.page f).markDirty t := h.page_self hf.present
  refine ⟨?_, h.self, ?_, ?_, ?_, fun hroom => ?_,
    Nat.le_trans (Nat.le_of_eq hlisted.size_eq) hlisted.length_le⟩
  · change b.order.getLast? = _
    cases hafter with
    | again _ horder => exact horder ▸ List.getLast?_concat
    | first _ _ horder => exact horder ▸ List.getLast?_concat
    | instead _ _ _ _ horder => exact horder ▸ List.getLast?_concat
  · rw [hself, id_markDirty]
  · rw [hself, image_markDirty]
  · rw [hself, dirtier_markDirty]
  · have hlies := (hf.mark t).lies hroom
    rw [page_mark hf.present, id_markDirty, Page.underlying, dirtier_markDirty] at hlies
    rw [hself]
    exact hlies

end Entered

/-- To mark a frame that is not cached changes nothing that can be seen of the cache. -/
theorem leftOut_mark (hp : p.Rooted) (hf : f.number < p.buffer.frames.size) (t : TxnId)
    (hnone : p.buffer.isCached (p.page f).id = false) : LeftOut p (p.mark f t) (p.page f).id := by
  refine ⟨hnone, fun q => ?_, rfl, rfl⟩
  cases hcached : p.buffer.cached? q with
  | none =>
    rw [cachedPage?, cachedPage?, Buffer.cachedPage?_eq_none.mpr hcached]
    exact Buffer.cachedPage?_eq_none.mpr hcached
  | some g =>
    have hne : f ≠ g := by
      rintro rfl
      rw [hp.page_id hcached, Buffer.isCached_iff.mpr ⟨f, hcached⟩] at hnone
      cases hnone
    have hsame : (p.mark f t).buffer.page g = p.buffer.page g :=
      (Buffer.page_setPage hf _ g).trans (if_neg hne)
    rw [cachedPage?, cachedPage?, Buffer.cachedPage?_of_cached hcached, ← hsame]
    exact Buffer.cachedPage?_of_cached hcached

theorem respects_track (hp : p.Rooted) (hf : p.Safe f) (hmine : mine (p.page f).id) (t : TxnId) :
    Respects mine p ((track f t).on p).2 := by
  rcases track_cases hp f t with ⟨b, hentered⟩ | ⟨hon, -⟩
  · rw [hentered.tracked]
    exact hentered.respects hp hf hmine
  · rw [hon]
    exact respects_mark hf.present hmine t

end Pool

end PagedHeap
