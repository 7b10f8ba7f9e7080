import PagedHeap.Proofs.Pool.Balance
import PagedHeap.Proofs.Pool.Deeds

/-!
# Writing behind the log

In a run that is not tampered with, files change by pages that are written and by blank pages that
are appended.  Whatever is written was logged just before, with the content that the file still has.
-/

namespace PagedHeap

/-- What the file holds of the page: a dirty page has its baseline there. -/
def Page.underlying (page : Page) : Image :=
  match page.dirtier with
  | some _ => page.baseline
  | none => page.image

theorem Page.underlying_markDirty (page : Page) (t : TxnId) (img : Image) :
    ((page.markDirty t).withImage img).underlying = page.underlying := by
  rw [Page.underlying, Page.underlying, Page.withImage, Page.markDirty, Page.isDirty]
  cases page.dirtier with
  | none => rfl
  | some _ => rfl

namespace Pool

open Disk

variable {loses : PageId → Loss → Prop} {p p' : Pool} {d : Deed} {ds : List Deed} {id q : PageId}
  {f : FrameId} {t : TxnId} {page old new : Page}

theorem Cleaned.underlying (h : Cleaned old new) : new.underlying = old.image := by
  rw [Page.underlying, h.dirtier, h.image]

/-- Every cached page lies in its file as it was when it was last clean. -/
structure Faithful (p : Pool) : Prop where
  housed : p.Housed False
  underlies : ∀ id page, p.cachedPage? id = some page → p.disk.image? id = some page.underlying

theorem Faithful.mounted (hp : p.Faithful) : p.disk.Mounted :=
  hp.housed.mounted.resolve_left id

/-- The page of the record was logged, the log was forced, and then the page was written. -/
structure WrittenAhead (p : Pool) (r : UpdateRecord) (p' : Pool) : Prop where
  logged : ∃ page j₁ j₂, p.cachedPage? r.page = some page ∧ page.dirtier = some r.txn ∧
    page.baseline = r.before ∧ page.image = r.after ∧
    (Journal.append r.txn page).on p.journal = (.ok (.ok ()), j₁) ∧
    Journal.force.on j₁ = (.ok (.ok ()), j₂) ∧ p'.journal = j₂.record (.written r.page r.after)
  entries : p'.journal.entries =
    p.journal.entries ++ [.update r, .force, .written r.page r.after]
  /-- The record tells what the file holds. -/
  before : p.disk.image? r.page = some r.before
  after : ∀ q, p'.disk.image? q = if q = r.page then some r.after else p.disk.image? q

/-- A blank page stands behind all others. -/
structure Appended (p : Pool) (id : PageId) (p' : Pool) : Prop where
  unwritten : p.journal.Unwritten p'.journal
  pageNo : id.pageNo.toNat = p.disk.pages id.table
  before : p.disk.image? id = none
  after : ∀ q, p'.disk.image? q = if q = id then some Image.blank else p.disk.image? q

/-- Nothing has changed in the files. -/
structure Undisturbed (p p' : Pool) : Prop where
  unwritten : p.journal.Unwritten p'.journal
  files : ∀ q, p'.disk.image? q = p.disk.image? q

/-- What a deed does to the files. -/
def Files (p : Pool) : Deed → Pool → Prop
  | .wrote r, p' => WrittenAhead p r p'
  | .appended id, p' => Appended p id p'
  | _, p' => Undisturbed p p'

/-! ## The files grow -/

theorem Does.pages_le (h : Does False loses p d p') (hm : p.disk.Mounted) (table : TableId) :
    p.disk.pages table ≤ p'.disk.pages table := by
  have hbehind : ∀ {disk : Disk}, SameFiles p.disk disk → p.disk.pages table ≤ disk.pages table :=
    fun hsame => Nat.le_of_eq (hsame.pages table).symm
  cases h with
  | @fetch id f p' h =>
    have hfetched := fetched id p
    rw [h] at hfetched
    cases hfetched with
    | hit _ _ => exact Nat.le_refl _
    | miss page disk b _ _ hdisk _ _ _ => exact hbehind hdisk
  | @fetchFailed id e p' h =>
    have hfetched := fetched id p
    rw [h] at hfetched
    cases hfetched with
    | unread _ _ _ => exact Nat.le_refl _
    | noRoom page disk e _ _ hdisk _ => exact hbehind hdisk
  | change _ _ _ _ => exact Nat.le_refl _
  | @track f t p' _ h =>
    have htracked := tracked f t p
    rw [h] at htracked
    cases htracked with
    | again _ => exact Nat.le_refl _
    | back _ _ _ => exact Nat.le_refl _
  | trackFailed hf _ => exact hf.1.elim
  | @append table' id p' h =>
    rcases appendPage_cases hm table' with ⟨id', p'', hon, -, -, hgrown, -⟩ | ⟨e, hon⟩
    · rw [h] at hon
      rw [(Prod.mk.inj hon).2]
      exact hgrown.pages_le table
    · cases h.symm.trans hon
  | @write f id t p₁ new _ _ _ h =>
    rcases writeBack_any (p.page f) p with
      ⟨e, journal, hon, -⟩ | ⟨store, store', -, hlookup, hwrite, hon⟩
    · cases h.symm.trans hon
    · rw [h] at hon
      rw [(Prod.mk.inj hon).2]
      exact pages_le_put (store?_of_lookup hlookup).1 (write_eq_ok hwrite).2.2 table
  | @writeFailed f id x p₁ _ h hx =>
    obtain ⟨journal, rfl, -⟩ := pool_of_failed h hx
    exact Nat.le_refl _
  | @unwritten f id t e p₁ _ _ h _ =>
    obtain ⟨journal, rfl, -⟩ := pool_of_failed h nofun
    exact Nat.le_refl _
  | lose _ _ _ => exact Nat.le_refl _
  | pin _ _ => exact Nat.le_refl _
  | arrange _ hdisk _ => exact Nat.le_of_eq ((hdisk.resolve_left id hm).2.2 table).symm
  | edit _ _ hwild _ => exact hwild.elim

theorem LeadsTo.pages_le {may : Deed → Prop} {used : List PageId}
    (h : LeadsTo False may used p p') (hp : p.Housed False) (table : TableId) :
    p.disk.pages table ≤ p'.disk.pages table := by
  obtain ⟨ds, hcourse, -⟩ := h.course fun _ _ => id
  exact (hcourse.invariant
    (I := fun p' => p'.Housed False ∧ p.disk.pages table ≤ p'.disk.pages table)
    ⟨hp, Nat.le_refl _⟩ fun _ _ _ ⟨hp, hle⟩ hdoes =>
      ⟨hdoes.housed hp, Nat.le_trans hle (hdoes.pages_le (hp.mounted.resolve_left id) table)⟩).2

/-- Every cached page lies within its file. -/
structure Grounded (p : Pool) : Prop where
  housed : p.Housed False
  listed : p.buffer.Listed
  within : ∀ id ∈ p.buffer.order, id.pageNo.toNat < p.disk.pages id.table

/-- A page that comes into use was read from its file, or had been cached before. -/
theorem Grounded.within_of_used (hp : p.Grounded) (h : Does False loses p (.used id) p') :
    id.pageNo.toNat < p.disk.pages id.table := by
  have hcached : ∀ {q f}, p.buffer.cached? q = some f → q.pageNo.toNat < p.disk.pages q.table :=
    fun hf => hp.within _ ((hp.listed.mem_iff _).mpr (Buffer.isCached_iff.mpr ⟨_, hf⟩))
  cases h with
  | fetch h =>
    have hfetched := fetched id p
    rw [h] at hfetched
    cases hfetched with
    | hit _ hf => exact hcached hf
    | miss _ _ _ _ _ _ himage _ _ =>
      exact lt_pages_of_image? (hp.housed.mounted.resolve_left not_false) himage
  | track hf _ =>
    obtain ⟨q, hf⟩ := hf.resolve_left And.left
    rw [page, (hp.housed.framed q _ hf).2]
    exact hcached hf

theorem Does.grounded (h : Does False loses p d p') (hp : p.Grounded) : p'.Grounded := by
  have hpages := h.pages_le (hp.housed.mounted.resolve_left id)
  obtain ⟨hlisted, hafter⟩ := (h.reshaped hp.housed.framed).after hp.housed.framed hp.listed
  refine ⟨h.housed hp.housed, hlisted, fun q hq => Nat.lt_of_lt_of_le ?_ (hpages q.table)⟩
  rcases hafter.enters hq with hq | rfl
  · exact hp.within q hq
  · exact hp.within_of_used h

theorem Course.grounded (h : Course (Does False loses) p ds p') (hp : p.Grounded) : p'.Grounded :=
  h.invariant hp fun _ _ _ hp hdoes => hdoes.grounded hp

/-! ## What each deed does -/

theorem Faithful.underlies_setPage (hp : p.Faithful) (hf : p.buffer.cached? id = some f)
    (hnew : new.underlying = (p.page f).underlying) :
    ∀ q page, (p.setPage f new).cachedPage? q = some page →
      p.disk.image? q = some page.underlying := by
  intro q page hcached
  have hset := Buffer.cachedPage?_setPage hp.housed.framed hf new q
  rw [cachedPage?, setPage, withBuffer, hset] at hcached
  split at hcached
  case isTrue heq =>
    obtain rfl := Option.some.inj hcached
    rw [heq, hnew]
    exact hp.underlies id _ (Buffer.cachedPage?_of_cached hf)
  case isFalse => exact hp.underlies q page hcached

/-- A page that comes into the cache is what its file holds. -/
theorem Faithful.underlies_of_fetch {x : Checked (Except Error FrameId)} (hp : p.Faithful)
    (h : (fetch id).on p = (x, p')) :
    Undisturbed p p' ∧ ∀ q page, p'.cachedPage? q = some page →
      p.disk.image? q = some page.underlying := by
  obtain ⟨-, hdisk, hjournal, hcache⟩ := fetch_shuffled hp.housed.framed h
  have hunwritten : p.journal.Unwritten p'.journal :=
    Journal.unwritten_of_eq (congrArg Journal.entries hjournal)
  refine ⟨⟨hunwritten, hdisk.image? hp.mounted⟩, fun q page hcached => ?_⟩
  rcases hcache q with hsame | ⟨-, hnone | ⟨img, himage, hclean⟩⟩
  · exact hp.underlies q page (hsame.symm.trans hcached)
  · cases hnone.symm.trans hcached
  · obtain rfl := Option.some.inj (hclean.symm.trans hcached)
    exact himage

theorem Faithful.underlies_of_track (hp : p.Faithful) (hf : p.buffer.cached? id = some f)
    (h : (track f t).on p = (.ok (.ok ()), p')) :
    Undisturbed p p' ∧ ∀ q page, p'.cachedPage? q = some page →
      p.disk.image? q = some page.underlying := by
  have hid : (p.page f).id = id := (hp.housed.framed id f hf).2
  have hmarked := hp.underlies_setPage hf (Page.underlying_markDirty (p.page f) t (p.page f).image)
  have hsame : ((p.page f).markDirty t).withImage (p.page f).image = (p.page f).markDirty t := by
    rw [← image_markDirty (p.page f) t]
    rfl
  rw [hsame] at hmarked
  have htracked := tracked f t p
  rw [h] at htracked
  cases htracked with
  | again _ =>
    refine ⟨⟨Journal.unwritten_of_eq rfl, fun _ => rfl⟩, fun q page hcached => ?_⟩
    have henter := Buffer.cachedPage?_enter (p.buffer.setPage f ((p.page f).markDirty t))
      (p.page f).id f q
    replace hcached := henter.symm.trans hcached
    split at hcached
    case isTrue heq =>
      refine hmarked q page ?_
      rw [heq, hid]
      exact (Buffer.cachedPage?_of_cached (b := p.buffer.setPage f _) hf).trans hcached
    case isFalse => exact hmarked q page hcached
  | back _ hnone _ =>
    rw [hid, Buffer.isCached_iff.mpr ⟨f, hf⟩] at hnone
    cases hnone

theorem appended_of_append {table : TableId} (hm : p.disk.Mounted)
    (h : (appendPage table).on p = (.ok (.ok id), p')) (hroom : p'.disk.Roomy) :
    Appended p id p' ∧ p'.buffer = p.buffer := by
  rcases appendPage_cases hm table with ⟨id', p'', hon, -, hbuffer, hgrown, -⟩ | ⟨e, hon⟩
  case inr => cases h.symm.trans hon
  obtain ⟨hid, rfl⟩ := Prod.mk.inj (h.symm.trans hon)
  obtain rfl := Except.ok.inj (Except.ok.inj hid)
  obtain ⟨hno, hblank⟩ := hgrown.pages_id (hroom id.table)
  have hnone : p.disk.image? id = none := by
    cases himage : p.disk.image? id with
    | none => rfl
    | some img => exact absurd (lt_pages_of_image? hm himage) (by omega)
  have hjournal : p'.journal = p.journal := by
    rcases appendPage_any table p with ⟨id', disk, hon'⟩ | ⟨e, hon'⟩
    · rw [(Prod.mk.inj (h.symm.trans hon')).2]
      rfl
    · cases h.symm.trans hon'
  refine ⟨⟨Journal.unwritten_of_eq (by rw [hjournal]), hno, hnone, fun q => ?_⟩, hbuffer⟩
  split
  case isTrue heq => exact heq ▸ hblank
  case isFalse hne =>
    rcases hgrown.image? q with hsame | ⟨heq, -⟩ | ⟨-, hfull⟩
    · exact hsame
    · exact absurd heq hne
    · exact absurd (hroom q.table) (Nat.not_lt.mpr hfull)

theorem Faithful.writtenAhead {p₁ : Pool} (hp : p.Faithful) (hf : p.buffer.cached? id = some f)
    (hdirty : (p.page f).dirtier = some t) (h : (writeBack (p.page f)).on p = (.ok (.ok ()), p₁))
    (new : Page) :
    WrittenAhead p ⟨t, id, (p.page f).baseline, (p.page f).image⟩ (p₁.setPage f new) := by
  have hcached : p.cachedPage? id = some (p.page f) := Buffer.cachedPage?_of_cached hf
  have hid : (p.page f).id = id := (hp.housed.framed id f hf).2
  have hbefore := hp.underlies id _ hcached
  rw [Page.underlying, hdirty] at hbefore
  rcases writeBack_any (p.page f) p with
    ⟨e, journal, hon, -⟩ | ⟨store, store', hlog, hlookup, hwrite, hon⟩
  · cases h.symm.trans hon
  obtain ⟨-, rfl⟩ := Prod.mk.inj (h.symm.trans hon)
  rw [Journal.logged_of_dirty hdirty] at hlog ⊢
  obtain ⟨j, happend, hforce⟩ := Journal.on_append_force t (p.page f) hlog
  have hpresent := lt_pages_of_image? hp.mounted hbefore
  have hrewritten := rewritten_put hp.mounted (store?_of_lookup hlookup).1
    (by rw [hid]; exact hpresent) hwrite
  refine ⟨⟨_, j, _, hcached, hdirty, rfl, rfl, happend, hforce, ?_⟩, ?_, hbefore, fun q => ?_⟩
  · rw [hid]
    rfl
  · have hrecord : Journal.recordOf t (p.page f) =
        ⟨t, id, (p.page f).baseline, (p.page f).image⟩ := by
      rw [Journal.recordOf, hid]
    have hentries := Journal.entries_log hlog
    rw [hrecord] at hentries ⊢
    simp only [setPage, withBuffer, Journal.record, hentries, hid, List.append_assoc]
    rfl
  · refine (hrewritten.image? q).trans ?_
    rw [hid]
    split
    case isTrue heq => rw [heq, hbefore, Option.map_some]
    case isFalse => rfl

/-- A deed, told together with what it does to the files and the log. -/
structure Logs (loses : PageId → Loss → Prop) (p : Pool) (d : Deed) (p' : Pool) : Prop where
  does : Does False loses p d p'
  files : p.Files d p'

theorem Does.logs (h : Does False loses p d p') (hp : p.Faithful) (hroom : p'.disk.Roomy) :
    p'.Faithful ∧ p.Logs loses d p' := by
  have hhoused := h.housed hp.housed
  have hquiet : p.journal.Unwritten p.journal := Journal.unwritten_of_eq rfl
  -- Most deeds leave the files alone.
  have hkept : ∀ p', p'.Housed False → Undisturbed p p' →
      (∀ q page, p'.cachedPage? q = some page → p.disk.image? q = some page.underlying) →
      p'.Faithful := fun p' hhoused hundisturbed hcached =>
    ⟨hhoused, fun q page h => (hundisturbed.files q).trans (hcached q page h)⟩
  have hall := h
  cases h with
  | fetch h =>
    obtain ⟨hundisturbed, hcached⟩ := hp.underlies_of_fetch h
    exact ⟨hkept _ hhoused hundisturbed hcached, hall, hundisturbed⟩
  | fetchFailed h =>
    obtain ⟨hundisturbed, hcached⟩ := hp.underlies_of_fetch h
    exact ⟨hkept _ hhoused hundisturbed hcached, hall, hundisturbed⟩
  | change f t img hf =>
    obtain ⟨id, hf⟩ := hf.resolve_left id
    exact ⟨hkept _ hhoused ⟨hquiet, fun _ => rfl⟩
      (hp.underlies_setPage hf (Page.underlying_markDirty _ t img)), hall, hquiet, fun _ => rfl⟩
  | track hf h =>
    obtain ⟨id, hf⟩ := hf.resolve_left And.left
    obtain ⟨hundisturbed, hcached⟩ := hp.underlies_of_track hf h
    exact ⟨hkept _ hhoused hundisturbed hcached, hall, hundisturbed⟩
  | trackFailed hf _ => exact hf.1.elim
  | append h =>
    obtain ⟨happended, hbuffer⟩ := appended_of_append hp.mounted h hroom
    refine ⟨⟨hhoused, fun q page hcached => ?_⟩, hall, happended⟩
    rw [cachedPage?, hbuffer] at hcached
    have himage := hp.underlies q page hcached
    rw [happended.after, if_neg, himage]
    rintro rfl
    rw [happended.before] at himage
    cases himage
  | @write f id t p₁ new hf hdirty hnew h =>
    have hahead := hp.writtenAhead hf hdirty h new
    refine ⟨⟨hhoused, fun q page hcached => ?_⟩, hall, hahead⟩
    have hbuffer := buffer_writeBack (p.page f) p
    rw [h] at hbuffer
    have hset := Buffer.cachedPage?_setPage hp.housed.framed hf new q
    rw [cachedPage?, setPage, withBuffer, hbuffer, hset] at hcached
    rw [hahead.after]
    split at hcached
    case isTrue heq =>
      obtain rfl := Option.some.inj hcached
      rw [if_pos heq, hnew.underlying]
    case isFalse hne =>
      rw [if_neg hne]
      exact hp.underlies q page hcached
  | writeFailed hf h hx =>
    obtain ⟨journal, rfl, hgrows⟩ := pool_of_failed h hx
    exact ⟨hkept _ hhoused ⟨hgrows.unwritten, fun _ => rfl⟩ hp.underlies, hall, hgrows.unwritten,
      fun _ => rfl⟩
  | unwritten hf hdirty h hloses =>
    obtain ⟨journal, rfl, hgrows⟩ := pool_of_failed h fun _ h => by cases h
    exact ⟨hkept _ hhoused ⟨hgrows.unwritten, fun _ => rfl⟩ fun q page hcached =>
      hp.underlies q page (cachedPage?_of_discard hcached), hall, hgrows.unwritten, fun _ => rfl⟩
  | lose id why hloses =>
    exact ⟨hkept _ hhoused ⟨hquiet, fun _ => rfl⟩ fun q page hcached =>
      hp.underlies q page (cachedPage?_of_discard hcached), hall, hquiet, fun _ => rfl⟩
  | pin _ _ =>
    exact ⟨hkept _ hhoused ⟨hquiet, fun _ => rfl⟩ hp.underlies, hall, hquiet, fun _ => rfl⟩
  | arrange hbuffer hdisk hjournal =>
    have hundisturbed : Undisturbed p p' :=
      ⟨Journal.unwritten_of_eq hjournal, (hdisk.resolve_left id hp.mounted).2.1⟩
    refine ⟨hkept _ hhoused hundisturbed fun q page hcached => ?_, hall, hundisturbed⟩
    rw [cachedPage?, hbuffer] at hcached
    exact hp.underlies q page hcached
  | edit _ _ hwild _ => exact hwild.elim

/-- What lies in the files is told by the deeds, as long as page numbers are left. -/
theorem Course.logs (h : Course (Does False loses) p ds p') (hp : p.Faithful)
    (hroom : p'.disk.Roomy) : p'.Faithful ∧ Course (Logs loses) p ds p' := by
  induction h with
  | nil => exact ⟨hp, .nil⟩
  | snoc hcourse hdoes ih =>
    have hm := (hcourse.housed hp.housed).mounted.resolve_left id
    obtain ⟨hp', hlogs⟩ := ih (hroom.of_le (hdoes.pages_le hm))
    obtain ⟨hp'', hlast⟩ := hdoes.logs hp' hroom
    exact ⟨hp'', hlogs.snoc hlast⟩

end Pool

end PagedHeap
