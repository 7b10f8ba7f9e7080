import PagedHeap.Proofs.Pool.Reshaping
import PagedHeap.Proofs.Pool.WriteBack

/-!
# Deeds

Everything that is done to a pool, by whatever command and in whatever state, is one of a few deeds,
or several one after the other.  What must stay true is checked against each deed once.  One
parameter says whether frames that are not cached may be changed, and stores and pages in memory be
tampered with; another one says which pages may be lost, and how, or which deeds may be done at all.
-/

namespace PagedHeap

namespace Disk

/-- The disks show the same, as long as every store belongs to its table. -/
def Alike (a b : Disk) : Prop :=
  a.Mounted → b.Mounted ∧ (∀ id, b.image? id = a.image? id) ∧ ∀ table, b.pages table = a.pages table

theorem SameFiles.alike {a b : Disk} (h : SameFiles a b) : a.Alike b :=
  fun hm => ⟨h.mounted hm, h.image? hm, h.pages⟩

theorem alike_addTable (d : Disk) (table : TableId) : d.Alike (d.addTable table) := by
  refine fun hm => ⟨hm.addTable table, fun id => ?_, fun u => ?_⟩
  · rw [image?, image?, store?_addTable]
    split
    case isFalse => rfl
    case isTrue =>
      cases d.store? id.table with
      | some s => rfl
      | none =>
        have hnot : (Volume.mount table Medium.empty).contains id = false := by
          simp [Volume.contains, Volume.pageCount, Volume.mount, Medium.empty]
        simp [hnot]
  · rw [pages, pages, store?_addTable]
    by_cases htable : table = u
    · rw [if_pos htable]
      cases d.store? u with
      | some s => rfl
      | none => exact Nat.zero_div pageSize
    · rw [if_neg htable]

theorem alike_removeTable (d : Disk) (table : TableId) : d.Alike (d.removeTable table) :=
  fun hm => ⟨hm, fun _ => rfl, fun _ => rfl⟩

end Disk

namespace Pool

open Disk

inductive Does (wild : Prop) (loses : PageId → Loss → Prop) (p : Pool) : Deed → Pool → Prop
  | fetch {id : PageId} {f : FrameId} {p' : Pool} (h : (fetch id).on p = (.ok (.ok f), p')) :
      Does wild loses p (.used id) p'
  | fetchFailed {id : PageId} {e : Error} {p' : Pool} (h : (fetch id).on p = (.ok (.error e), p')) :
      Does wild loses p .other p'
  | change (f : FrameId) (t : TxnId) (img : Image)
      (hf : wild ∨ ∃ id, p.buffer.cached? id = some f) :
      Does wild loses p .other (p.setPage f (((p.page f).markDirty t).withImage img))
  | track {f : FrameId} {t : TxnId} {p' : Pool}
      (hf : wild ∧ f.number < p.buffer.frames.size ∨ ∃ id, p.buffer.cached? id = some f)
      (h : (track f t).on p = (.ok (.ok ()), p')) : Does wild loses p (.used (p.page f).id) p'
  | trackFailed {f : FrameId} {t : TxnId} {e : Error} {p' : Pool}
      (hf : wild ∧ f.number < p.buffer.frames.size)
      (h : (track f t).on p = (.ok (.error e), p')) : Does wild loses p .other p'
  | append {table : TableId} {id : PageId} {p' : Pool}
      (h : (appendPage table).on p = (.ok (.ok id), p')) : Does wild loses p (.appended id) p'
  | write {f : FrameId} {id : PageId} {t : TxnId} {p₁ : Pool} (new : Page)
      (hf : p.buffer.cached? id = some f) (hdirty : (p.page f).dirtier = some t)
      (hnew : Cleaned (p.page f) new) (h : (writeBack (p.page f)).on p = (.ok (.ok ()), p₁)) :
      Does wild loses p (.wrote ⟨t, id, (p.page f).baseline, (p.page f).image⟩) (p₁.setPage f new)
  | writeFailed {f : FrameId} {id : PageId} {x : Checked (Except Error Unit)} {p₁ : Pool}
      (hf : p.buffer.cached? id = some f) (h : (writeBack (p.page f)).on p = (x, p₁))
      (hx : ∀ u, x ≠ .ok (.ok u)) : Does wild loses p .other p₁
  /-- The dirtier of a page commits, and the page cannot be written. -/
  | unwritten {f : FrameId} {id : PageId} {t : TxnId} {e : Error} {p₁ : Pool}
      (hf : p.buffer.cached? id = some f) (hdirty : (p.page f).dirtier = some t)
      (h : (writeBack (p.page f)).on p = (.ok (.error e), p₁))
      (hloses : loses id (.unwritten t)) :
      Does wild loses p (.lost id (.unwritten t)) (p₁.discard id)
  | lose (id : PageId) (why : Loss) (hloses : loses id why) :
      Does wild loses p (.lost id why) (p.discard id)
  | pin (who : Holder) {holders : SortedMap Holder FrameId}
      (hothers : ∀ who', who' ≠ who → holders.get? who' = p.buffer.holders.get? who') :
      Does wild loses p (.pinned who) (p.withBuffer { p.buffer with holders })
  /-- Stores are read, or set to fail, or entered into the catalog, and the like. -/
  | arrange {p' : Pool} (hbuffer : p'.buffer = p.buffer) (hdisk : wild ∨ Alike p.disk p'.disk)
      (hjournal : p'.journal.entries = p.journal.entries) : Does wild loses p .other p'
  | edit (f : FrameId) (page : Page) (hwild : wild) (hid : page.id = (p.page f).id) :
      Does wild loses p .edited (p.setPage f page)

/-- Deeds one after the other, in which each does what the relation says. -/
inductive Course (R : Pool → Deed → Pool → Prop) (p : Pool) : List Deed → Pool → Prop
  | nil : Course R p [] p
  | snoc {ds : List Deed} {d : Deed} {p' p'' : Pool} (h : Course R p ds p') (hdoes : R p' d p'') :
      Course R p (ds ++ [d]) p''

variable {wild : Prop} {loses : PageId → Loss → Prop} {p p' p'' : Pool} {d : Deed}
  {ds ds' : List Deed} {id q : PageId} {f : FrameId} {t : TxnId} {page : Page}

namespace Course

variable {R R' : Pool → Deed → Pool → Prop}

theorem single (h : R p d p') : Course R p [d] p' :=
  Course.nil.snoc h

theorem trans (h : Course R p ds p') (h' : Course R p' ds' p'') : Course R p (ds ++ ds') p'' := by
  induction h' with
  | nil => rwa [List.append_nil]
  | snoc _ hdoes ih =>
    rw [← List.append_assoc]
    exact ih.snoc hdoes

/-- What each deed preserves is preserved, and may be used to say more of each deed. -/
theorem refine {I : Pool → Prop} (h : Course R p ds p') (hp : I p)
    (hstep : ∀ p d p', I p → R p d p' → I p' ∧ R' p d p') : I p' ∧ Course R' p ds p' := by
  induction h with
  | nil => exact ⟨hp, .nil⟩
  | snoc _ hdoes ih =>
    obtain ⟨hinv, hdoes'⟩ := hstep _ _ _ ih.1 hdoes
    exact ⟨hinv, ih.2.snoc hdoes'⟩

theorem mono (h : Course R p ds p') (hle : ∀ p d p', R p d p' → R' p d p') : Course R' p ds p' :=
  (h.refine (I := fun _ => True) trivial fun p d p' _ hdoes => ⟨trivial, hle p d p' hdoes⟩).2

theorem invariant {I : Pool → Prop} (h : Course R p ds p') (hp : I p)
    (hstep : ∀ p d p', I p → R p d p' → I p') : I p' :=
  have hboth : I p' ∧ Course R p ds p' :=
    h.refine hp fun p d p' hinv hdoes => ⟨hstep p d p' hinv hdoes, hdoes⟩
  hboth.1

end Course

theorem Does.mono {loses' : PageId → Loss → Prop} (h : Does wild loses p d p')
    (hle : ∀ id why, loses id why → loses' id why) : Does wild loses' p d p' := by
  cases h with
  | fetch h => exact .fetch h
  | fetchFailed h => exact .fetchFailed h
  | change f t img hf => exact .change f t img hf
  | track hf h => exact .track hf h
  | trackFailed hf h => exact .trackFailed hf h
  | append h => exact .append h
  | write new hf hdirty hnew h => exact .write new hf hdirty hnew h
  | writeFailed hf h hx => exact .writeFailed hf h hx
  | unwritten hf hdirty h hloses => exact .unwritten hf hdirty h (hle _ _ hloses)
  | lose id why hloses => exact .lose id why (hle id why hloses)
  | pin who hothers => exact .pin who hothers
  | arrange hbuffer hdisk hjournal => exact .arrange hbuffer hdisk hjournal
  | edit f page hwild hid => exact .edit f page hwild hid

theorem Does.reshaped (h : Does wild loses p d p') (hp : p.buffer.Framed) :
    p.buffer.Reshaped d p'.buffer := by
  cases h with
  | @fetch id f p' h =>
    have hfetched := fetched id p
    rw [h] at hfetched
    cases hfetched with
    | hit f hf => exact .hit hf
    | miss page disk b hnone _ _ _ hclean hadd => exact .miss hnone (by rw [hclean]; rfl) hadd
  | @fetchFailed id e p' h =>
    have hfetched := fetched id p
    rw [h] at hfetched
    cases hfetched with
    | unread e _ _ => exact .same nofun nofun
    | noRoom page disk e _ _ _ _ => exact .same nofun nofun
  | change f t img _ => exact .revise (id_markDirty _ t) nofun nofun
  | @track f t p' hf h =>
    have hlt : f.number < p.buffer.frames.size := by
      rcases hf with ⟨-, hlt⟩ | ⟨id, hcached⟩
      · exact hlt
      · exact (hp id f hcached).1
    have hid : ((p.page f).markDirty t).id = (p.page f).id := id_markDirty _ _
    have htracked := tracked f t p
    rw [h] at htracked
    cases htracked with
    | again hcached => exact .again hlt hid hcached
    | back b hcached hadd => exact .back hlt hid hcached hadd
  | @trackFailed f t e p' _ h =>
    have htracked := tracked f t p
    rw [h] at htracked
    cases htracked with
    | noRoom e _ _ => exact .revise (id_markDirty _ _) nofun nofun
  | @append table id p' h =>
    rcases appendPage_any table p with ⟨id', disk, hon⟩ | ⟨e, hon⟩
    · obtain ⟨-, rfl⟩ := Prod.mk.inj (h.symm.trans hon)
      exact .same nofun nofun
    · cases h.symm.trans hon
  | @write f id t p₁ new hf _ hnew h =>
    have hbuffer := buffer_writeBack (p.page f) p
    rw [h] at hbuffer
    have hset : (p₁.setPage f new).buffer = p.buffer.setPage f new :=
      congrArg (fun b => b.setPage f new) hbuffer
    rw [hset]
    exact .revise hnew.id nofun nofun
  | @writeFailed f id x p₁ _ h _ =>
    have hbuffer := buffer_writeBack (p.page f) p
    rw [h] at hbuffer
    rw [hbuffer]
    exact .same nofun nofun
  | @unwritten f id t e p₁ _ _ h _ =>
    have hbuffer := buffer_writeBack (p.page f) p
    rw [h] at hbuffer
    have hset : (p₁.discard id).buffer = p.buffer.discard id :=
      congrArg (fun b => b.discard id) hbuffer
    rw [hset]
    exact .loss id _
  | lose id why _ => exact .loss id why
  | pin _ hothers => exact .pin hothers
  | arrange hbuffer _ _ =>
    rw [hbuffer]
    exact .same nofun nofun
  | edit f page _ hid => exact .revise hid nofun nofun

/-! ## What every deed preserves -/

theorem Does.mounted (h : Does wild loses p d p') (hm : p.disk.Mounted) :
    wild ∨ p'.disk.Mounted := by
  cases h with
  | @fetch id f p' h =>
    have hfetched := fetched id p
    rw [h] at hfetched
    cases hfetched with
    | hit _ _ => exact Or.inr hm
    | miss page disk b _ _ hdisk _ _ _ => exact Or.inr (hdisk.mounted hm)
  | @fetchFailed id e p' h =>
    have hfetched := fetched id p
    rw [h] at hfetched
    cases hfetched with
    | unread _ _ _ => exact Or.inr hm
    | noRoom page disk e _ _ hdisk _ => exact Or.inr (hdisk.mounted hm)
  | change _ _ _ _ => exact Or.inr hm
  | @track f t p' _ h =>
    have htracked := tracked f t p
    rw [h] at htracked
    cases htracked with
    | again _ => exact Or.inr hm
    | back _ _ _ => exact Or.inr hm
  | trackFailed hf _ => exact Or.inl hf.1
  | @append table id p' h =>
    rcases appendPage_cases hm table with ⟨id', p'', hon, -, -, hgrown, -⟩ | ⟨e, hon⟩
    · rw [h] at hon
      rw [(Prod.mk.inj hon).2]
      exact Or.inr hgrown.mounted
    · cases h.symm.trans hon
  | @write f id t p₁ new _ _ _ h =>
    rcases writeBack_any (p.page f) p with
      ⟨e, journal, hon, -⟩ | ⟨store, store', -, hlookup, hwrite, hon⟩
    · cases h.symm.trans hon
    · rw [h] at hon
      rw [(Prod.mk.inj hon).2]
      obtain ⟨htable, hdetours, -⟩ := write_eq_ok hwrite
      obtain ⟨htable₀, hdetours₀⟩ := hm _ _ (store?_of_lookup hlookup).1
      exact Or.inr (hm.put (htable.trans htable₀) (hdetours.trans hdetours₀))
  | @writeFailed f id x p₁ _ h hx =>
    obtain ⟨journal, rfl, -⟩ := pool_of_failed h hx
    exact Or.inr hm
  | @unwritten f id t e p₁ _ _ h _ =>
    obtain ⟨journal, rfl, -⟩ := pool_of_failed h nofun
    exact Or.inr hm
  | lose _ _ _ => exact Or.inr hm
  | pin _ _ => exact Or.inr hm
  | arrange _ hdisk _ => exact hdisk.imp id fun halike => (halike hm).1
  | edit _ _ hwild _ => exact Or.inl hwild

/-- The frames have the pages that they are cached under, and the stores that belong to the tables
have no business of their own. -/
structure Housed (wild : Prop) (p : Pool) : Prop where
  framed : p.buffer.Framed
  mounted : wild ∨ p.disk.Mounted

theorem Does.housed (h : Does wild loses p d p') (hp : p.Housed wild) : p'.Housed wild :=
  ⟨(h.reshaped hp.framed).framed hp.framed, hp.mounted.elim Or.inl h.mounted⟩

theorem Course.housed {ds : List Deed} (h : Course (Does wild loses) p ds p') (hp : p.Housed wild) :
    p'.Housed wild :=
  h.invariant hp fun _ _ _ hp hdoes => hdoes.housed hp

theorem Course.frames_le {ds : List Deed} (h : Course (Does wild loses) p ds p')
    (hp : p.Housed wild) : p.buffer.frames.size ≤ p'.buffer.frames.size :=
  (h.invariant (I := fun p' => p'.Housed wild ∧ p.buffer.frames.size ≤ p'.buffer.frames.size)
    ⟨hp, Nat.le_refl _⟩ fun _ _ _ ⟨hp, hle⟩ hdoes =>
      ⟨hdoes.housed hp, Nat.le_trans hle (hdoes.reshaped hp.framed).frames_le⟩).2

/-! ## Actions as deeds -/

/-- One of the deeds that may be done. -/
def DoesOneOf (wild : Prop) (may : Deed → Prop) (p : Pool) (d : Deed) (p' : Pool) : Prop :=
  may d ∧ Does wild (fun id why => may (.lost id why)) p d p'

/-- The pool is led from one state to the other by deeds that may be done, which use the pages in
the order of the list. -/
def LeadsTo (wild : Prop) (may : Deed → Prop) (used : List PageId) (p p' : Pool) : Prop :=
  ∃ ds, Course (DoesOneOf wild may) p ds p' ∧ usesOf ds = used

variable {may may' : Deed → Prop} {used used' : List PageId}

theorem Does.leadsTo (h : Does wild (fun id why => may (.lost id why)) p d p') (hmay : may d) :
    LeadsTo wild may (usesOf [d]) p p' :=
  ⟨[d], .single ⟨hmay, h⟩, rfl⟩

namespace LeadsTo

theorem refl (p : Pool) : LeadsTo wild may [] p p := ⟨[], .nil, rfl⟩

theorem trans (h : LeadsTo wild may used p p') (h' : LeadsTo wild may used' p' p'') :
    LeadsTo wild may (used ++ used') p p'' := by
  obtain ⟨ds, hcourse, rfl⟩ := h
  obtain ⟨ds', hcourse', rfl⟩ := h'
  exact ⟨ds ++ ds', hcourse.trans hcourse', usesOf_append ds ds'⟩

theorem mono (h : LeadsTo wild may used p p') (hle : ∀ d, may d → may' d) :
    LeadsTo wild may' used p p' := by
  obtain ⟨ds, hcourse, hused⟩ := h
  exact ⟨ds, hcourse.mono fun _ _ _ ⟨hmay, hdoes⟩ =>
    ⟨hle _ hmay, hdoes.mono fun _ _ => hle _⟩, hused⟩

theorem course (h : LeadsTo wild may used p p')
    (hle : ∀ id why, may (.lost id why) → loses id why) :
    ∃ ds, Course (Does wild loses) p ds p' ∧ usesOf ds = used := by
  obtain ⟨ds, hcourse, hused⟩ := h
  exact ⟨ds, hcourse.mono fun _ _ _ hdoes => hdoes.2.mono hle, hused⟩

theorem housed (h : LeadsTo wild may used p p') (hp : p.Housed wild) : p'.Housed wild := by
  obtain ⟨ds, hcourse, -⟩ := h.course fun _ _ => id
  exact hcourse.housed hp

theorem frames_le (h : LeadsTo wild may used p p') (hp : p.Housed wild) :
    p.buffer.frames.size ≤ p'.buffer.frames.size := by
  obtain ⟨ds, hcourse, -⟩ := h.course fun _ _ => id
  exact hcourse.frames_le hp

theorem id_page (h : LeadsTo wild may used p p') (hp : p.Housed wild)
    (hf : f.number < p.buffer.frames.size) : (p'.page f).id = (p.page f).id := by
  obtain ⟨ds, hcourse, -⟩ := h.course fun _ _ => id
  have hkept := hcourse.invariant
    (I := fun p' => p'.Housed wild ∧ f.number < p'.buffer.frames.size ∧
      (p'.page f).id = (p.page f).id)
    ⟨hp, hf, rfl⟩ fun _ _ _ ⟨hp, hf, hid⟩ hdoes =>
      have hreshaped := hdoes.reshaped hp.framed
      ⟨hdoes.housed hp, Nat.lt_of_lt_of_le hf hreshaped.frames_le, (hreshaped.id_page hf).trans hid⟩
  exact hkept.2.2

theorem holders {who : Holder} (h : LeadsTo wild may used p p') (hp : p.Housed wild)
    (hmay : ¬ may (.pinned who)) : p'.buffer.holders.get? who = p.buffer.holders.get? who := by
  obtain ⟨ds, hcourse, -⟩ := h
  have hkept := hcourse.invariant
    (I := fun p' => p'.Housed wild ∧ p'.buffer.holders.get? who = p.buffer.holders.get? who)
    ⟨hp, rfl⟩ fun _ _ _ ⟨hp, hsame⟩ ⟨hdeed, hdoes⟩ =>
      have hstep := (hdoes.reshaped hp.framed).holders fun heq => hmay (heq ▸ hdeed)
      ⟨hdoes.housed hp, hstep.trans hsame⟩
  exact hkept.2

end LeadsTo

theorem leadsTo_arrange (hbuffer : p'.buffer = p.buffer) (hdisk : wild ∨ Alike p.disk p'.disk)
    (hjournal : p'.journal.entries = p.journal.entries) (hmay : may .other) :
    LeadsTo wild may [] p p' :=
  (Does.arrange hbuffer hdisk hjournal).leadsTo hmay

/-- Placing a row changes the frame that it is placed in, or nothing. -/
theorem placeRow_leadsTo (f : FrameId) (t : TxnId) (row : Row)
    (hf : wild ∨ ∃ id, p.buffer.cached? id = some f) :
    LeadsTo wild (Deed.OfRows) [] p ((placeRow f t row).on p).2 := by
  have hsame : LeadsTo wild (Deed.OfRows) [] p (p.setPage f (p.page f)) := by
    rw [setPage_self]
    exact .refl p
  rw [on_placeRow]
  cases (p.page f).hasRoom row.length with
  | error fault => exact hsame
  | ok room =>
    cases room with
    | false => exact hsame
    | true => exact (Does.change f t _ hf).leadsTo trivial

theorem removeRow_leadsTo (f : FrameId) (t : TxnId) (slot : SlotId)
    (hf : wild ∨ ∃ id, p.buffer.cached? id = some f) :
    LeadsTo wild (Deed.OfRows) [] p ((removeRow f t slot).on p).2 := by
  have hsame : LeadsTo wild (Deed.OfRows) [] p (p.setPage f (p.page f)) := by
    rw [setPage_self]
    exact .refl p
  rw [on_removeRow]
  rcases (p.page f).row slot with fault | e | old
  · exact hsame
  · exact hsame
  · exact (Does.change f t _ hf).leadsTo trivial

theorem fetch_leadsTo (id : PageId) (p : Pool) :
    LeadsTo wild (Deed.OfRows) (usedBy (fun _ => [id]) ((fetch id).on p).1) p
      ((fetch id).on p).2 := by
  have hfetched := fetched id p
  rcases hon : (fetch id).on p with ⟨fault | e | f, p'⟩
  · rw [hon] at hfetched
    cases hfetched
  · exact (Does.fetchFailed hon).leadsTo trivial
  · exact (Does.fetch hon).leadsTo trivial

/-- Tracking the frame that is cached cannot fail. -/
theorem track_leadsTo (hp : p.buffer.Framed) (t : TxnId)
    (hf : wild ∧ f.number < p.buffer.frames.size ∨ ∃ id, p.buffer.cached? id = some f) :
    LeadsTo wild (Deed.OfRows)
      (usedBy (fun _ => [(p.page f).id]) ((track f t).on p).1) p ((track f t).on p).2 := by
  have htracked := tracked f t p
  rcases hon : (track f t).on p with ⟨fault | e | u, p'⟩
  · rw [hon] at htracked
    cases htracked
  · rcases hf with hwild | ⟨id, hcached⟩
    · exact (Does.trackFailed hwild hon).leadsTo trivial
    · rw [hon] at htracked
      cases htracked with
      | noRoom _ hnone _ =>
        rw [page, (hp id f hcached).2, Buffer.isCached_iff.mpr ⟨f, hcached⟩] at hnone
        cases hnone
  · exact (Does.track hf hon).leadsTo trivial

theorem appendPage_leadsTo (table : TableId) (p : Pool) :
    LeadsTo wild (Deed.OfRows) [] p ((appendPage table).on p).2 := by
  rcases appendPage_any table p with ⟨id, disk, hon⟩ | ⟨e, hon⟩
  · rw [hon]
    exact (Does.append hon).leadsTo trivial
  · rw [hon]
    exact .refl p

/-! ## Writing back -/

/-- Steps one after the other, up to the first one that fails. -/
theorem forM_rel {α : Type} {act : α → Act Pool Unit} {R : Pool → Pool → Prop}
    {good : Pool → α → Prop} (hrefl : ∀ p, R p p) (htrans : ∀ p p' p'', R p p' → R p' p'' → R p p'')
    (hkeep : ∀ p p' a, R p p' → good p a → good p' a)
    (hact : ∀ p a, good p a → R p ((act a).on p).2) (l : List α) (hgood : ∀ a ∈ l, good p a) :
    R p ((l.forM act).on p).2 := by
  induction l generalizing p with
  | nil => exact hrefl p
  | cons a rest ih =>
    have hfirst := hact p a (hgood a List.mem_cons_self)
    have hcons : (a :: rest).forM act = act a >>= fun _ => rest.forM act := rfl
    rw [hcons, Act.on_bind]
    generalize (act a).on p = x at hfirst ⊢
    rcases x with ⟨fault | e | u, p'⟩
    · exact hfirst
    · exact hfirst
    · exact htrans _ _ _ hfirst (ih fun b hb =>
        hkeep _ _ b hfirst (hgood b (List.mem_cons_of_mem a hb)))

/-- A cached page is written and marked clean, or nothing but the journal changes. -/
theorem writeBack_leadsTo (hf : p.buffer.cached? id = some f) (hdirty : (p.page f).dirtier = some t)
    {new : Page} (hnew : Cleaned (p.page f) new) :
    let x := (writeBack (p.page f) >>= fun _ => modify fun p => p.setPage f new).on p
    LeadsTo wild (Deed.OfUpkeep loses) [] p x.2 ∧
      ∀ q, x.2.buffer.cached? q = p.buffer.cached? q := by
  have hbuffer := buffer_writeBack (p.page f) p
  have hfailed : ∀ {x : Checked (Except Error Unit)} {p₁ : Pool},
      (writeBack (p.page f)).on p = (x, p₁) → (∀ u, x ≠ .ok (.ok u)) →
      LeadsTo wild (Deed.OfUpkeep loses) [] p p₁ := fun hon hx =>
    (Does.writeFailed hf hon hx).leadsTo trivial
  simp only [Act.on_bind]
  rcases hon : (writeBack (p.page f)).on p with ⟨fault | e | u, p₁⟩
  · rw [hon] at hbuffer
    exact ⟨hfailed hon nofun, fun q => congrArg (fun b => b.cached? q) hbuffer⟩
  · rw [hon] at hbuffer
    exact ⟨hfailed hon nofun, fun q => congrArg (fun b => b.cached? q) hbuffer⟩
  · rw [hon] at hbuffer
    exact ⟨(Does.write new hf hdirty hnew hon).leadsTo trivial,
      fun q => congrArg (fun b => b.cached? q) hbuffer⟩

theorem flush_leadsTo (hf : p.buffer.cached? id = some f) :
    LeadsTo wild (Deed.OfUpkeep loses) [] p ((flush f).on p).2 ∧
      ∀ q, ((flush f).on p).2.buffer.cached? q = p.buffer.cached? q := by
  simp only [flush, Act.on_bind, Act.on_get]
  split
  case isFalse => exact ⟨.refl p, fun _ => rfl⟩
  case isTrue hdirty =>
    obtain ⟨t, ht⟩ := Option.isSome_iff_exists.mp hdirty
    exact writeBack_leadsTo hf ht (cleaned_markClean (p.page f))

/-- Frames that are cached, flushed or not one after the other. -/
theorem forM_leadsTo {α : Type} {act : α → Act Pool Unit} (good : Pool → α → Prop)
    (hkeep : ∀ p p' a, (∀ q, p'.buffer.cached? q = p.buffer.cached? q) → good p a → good p' a)
    (hact : ∀ p a, good p a → LeadsTo wild (Deed.OfUpkeep loses) [] p ((act a).on p).2 ∧
      ∀ q, ((act a).on p).2.buffer.cached? q = p.buffer.cached? q)
    (l : List α) (hgood : ∀ a ∈ l, good p a) :
    LeadsTo wild (Deed.OfUpkeep loses) [] p ((l.forM act).on p).2 :=
  (forM_rel
    (R := fun p p' => LeadsTo wild (Deed.OfUpkeep loses) [] p p' ∧
      ∀ q, p'.buffer.cached? q = p.buffer.cached? q)
    (fun p => ⟨.refl p, fun _ => rfl⟩)
    (fun _ _ _ h h' => ⟨h.1.trans h'.1, fun q => (h'.2 q).trans (h.2 q)⟩)
    (fun p p' a h => hkeep p p' a h.2) hact l hgood).1

theorem flushAll_leadsTo (p : Pool) :
    LeadsTo wild (Deed.OfUpkeep loses) [] p (flushAll.on p).2 := by
  simp only [flushAll, Act.on_bind, Act.on_get]
  refine forM_leadsTo (fun p f => ∃ id, p.buffer.cached? id = some f) (fun p p' f hsame hf => ?_)
    (fun p f hf => hf.elim fun id => flush_leadsTo) p.buffer.cache.values fun f hf => ?_
  · exact hf.imp fun id => (hsame id).trans
  obtain ⟨⟨id, f'⟩, hentry, rfl⟩ := List.mem_map.mp hf
  exact ⟨id, SortedMap.get?_eq_some.mpr hentry⟩

theorem flushPage_leadsTo (id : PageId) (p : Pool) :
    LeadsTo wild (Deed.OfUpkeep loses) [] p ((flushPage id).on p).2 := by
  simp only [flushPage, Act.on_bind, Act.on_get]
  cases hf : p.buffer.cached? id with
  | none => exact .refl p
  | some f => exact (flush_leadsTo hf).1

theorem flushOwned_leadsTo (t : TxnId) (ids : List PageId) (p : Pool) :
    LeadsTo wild (Deed.OfUpkeep loses) [] p ((flushOwned t ids).on p).2 := by
  refine forM_leadsTo (fun _ _ => True) (fun _ _ _ _ h => h) (fun p id _ => ?_) ids
    fun _ _ => trivial
  simp only [Act.on_bind, Act.on_get]
  cases hf : p.buffer.cached? id with
  | none => exact ⟨.refl p, fun _ => rfl⟩
  | some f =>
    simp only
    split
    case isTrue => exact flush_leadsTo hf
    case isFalse => exact ⟨.refl p, fun _ => rfl⟩

/-! ## Ending a transaction -/

/-- A page is settled, or it is lost because it could not be written, or a fault strikes. -/
theorem settlePage_leadsTo (t : TxnId) (id : PageId) (p : Pool)
    (hloses : loses id (.unwritten t)) :
    LeadsTo wild (Deed.OfUpkeep loses) [] p ((settlePage t id).on p).2 ∧
      ∀ e p', (settlePage t id).on p = (.ok (.error e), p') →
        LeadsTo wild (Deed.OfUpkeep loses) [] p (p'.discard id) := by
  simp only [settlePage, Act.on_bind, Act.on_get]
  cases hf : p.buffer.cached? id with
  | none => exact ⟨.refl p, fun e p' h => by cases h⟩
  | some f =>
    simp only
    split
    case isFalse => exact ⟨.refl p, fun e p' h => by cases h⟩
    case isTrue hdirty =>
      refine ⟨(writeBack_leadsTo hf hdirty (cleaned_rebase (p.page f))).1, fun e p' h => ?_⟩
      rw [Act.on_bind] at h
      rcases hon : (writeBack (p.page f)).on p with ⟨fault | e' | u, p₁⟩
      · rw [hon] at h
        cases h
      · rw [hon] at h
        obtain ⟨heq, rfl⟩ := Prod.mk.inj h
        have hlost : Does wild (fun id why => Deed.OfUpkeep loses (.lost id why)) p
            (.lost id (.unwritten t)) (p₁.discard id) :=
          .unwritten hf hdirty hon hloses
        exact hlost.leadsTo hloses
      · rw [hon] at h
        cases h

theorem settle_leadsTo (t : TxnId) (ids : List PageId) (p : Pool)
    (hloses : ∀ id ∈ ids, loses id (.unwritten t)) :
    LeadsTo wild (Deed.OfUpkeep loses) [] p ((settle t ids).on p).2 := by
  induction ids generalizing p with
  | nil => exact .refl p
  | cons id rest ih =>
    have hrest : ∀ id ∈ rest, loses id (.unwritten t) := fun q hq =>
      hloses q (List.mem_cons_of_mem id hq)
    obtain ⟨hfirst, hfailed⟩ : LeadsTo wild (Deed.OfUpkeep loses) [] p _ ∧ _ :=
      settlePage_leadsTo t id p (hloses id List.mem_cons_self)
    simp only [settle, Act.on_bind, Act.on_attempt]
    rcases hon : (settlePage t id).on p with ⟨fault | e | u, p₁⟩
    · rw [hon] at hfirst
      exact hfirst
    · have hdropped := (hfailed e p₁ hon).trans (ih (p₁.discard id) hrest)
      simp only [Except.map, Act.on_bind, Act.on_modify]
      generalize (settle t rest).on (p₁.discard id) = x at hdropped ⊢
      rcases x with ⟨fault | e' | failures, p₂⟩
      · exact hdropped
      · exact hdropped
      · exact hdropped
    · rw [hon] at hfirst
      exact hfirst.trans (ih p₁ hrest)

theorem forget_leadsTo (t : TxnId) (ids : List PageId) (p : Pool)
    (hloses : ∀ id ∈ ids, loses id (.aborted t)) :
    LeadsTo wild (Deed.OfUpkeep loses) [] p (p.forget ids) := by
  induction ids generalizing p with
  | nil => exact .refl p
  | cons id rest ih =>
    have hfirst := hloses id List.mem_cons_self
    have hlost : Does wild (fun id why => Deed.OfUpkeep loses (.lost id why)) p
        (.lost id (.aborted t)) (p.discard id) :=
      .lose id _ hfirst
    exact (hlost.leadsTo hfirst).trans
      (ih (p.discard id) fun q hq => hloses q (List.mem_cons_of_mem id hq))

end Pool

end PagedHeap
