import PagedHeap.Proofs.Pool.Deeds

/-!
# The discipline of the cache, deed by deed

The cache holds no more pages than it may, in the order of their last uses, and gives up the first
one that is clean and that nobody refers to.  A page that is dirty, or that somebody refers to,
stays until it is lost or written back.
-/

namespace PagedHeap

namespace Buffer

variable {b b' : Buffer} {loyal : Holder → Prop} {id q : PageId} {f : FrameId} {page : Page}

/-- The page is cached in a frame that is dirty, or that one of the holders refers to. -/
def Guards (b : Buffer) (loyal : Holder → Prop) (id : PageId) : Prop :=
  ∃ f, b.cached? id = some f ∧
    ((b.page f).isDirty = true ∨ ∃ who, loyal who ∧ b.holders.get? who = some f)

namespace Guards

theorem isCached (h : b.Guards loyal id) : b.isCached id = true := by
  obtain ⟨f, hf, -⟩ := h
  exact isCached_iff.mpr ⟨f, hf⟩

theorem not_isEvictable (h : b.Guards loyal id) : b.isEvictable id ≠ true := by
  intro hevictable
  obtain ⟨f, hf, hguarded⟩ := h
  obtain ⟨g, hg, hclean, hnobody⟩ := isEvictable_iff.mp hevictable
  obtain rfl := Option.some.inj (hf.symm.trans hg)
  rcases hguarded with hdirty | ⟨who, -, hwho⟩
  · rw [Page.isDirty, hclean] at hdirty
    cases hdirty
  · exact hnobody who hwho

theorem congr (h : b.Guards loyal id) (hcached : b'.cached? id = b.cached? id)
    (hpage : ∀ f, (b.page f).isDirty = true → (b'.page f).isDirty = true)
    (hholders : ∀ who, loyal who → b'.holders.get? who = b.holders.get? who) :
    b'.Guards loyal id := by
  obtain ⟨f, hf, hguarded⟩ := h
  refine ⟨f, hcached.trans hf, hguarded.imp (hpage f) ?_⟩
  rintro ⟨who, hloyal, hwho⟩
  exact ⟨who, hloyal, (hholders who hloyal).trans hwho⟩

theorem setPage (h : b.Guards loyal id) (f : FrameId) (hdirty : page.isDirty = true) :
    (b.setPage f page).Guards loyal id := by
  refine h.congr rfl (fun g hg => ?_) fun _ _ => rfl
  rcases Nat.lt_or_ge f.number b.frames.size with hlt | hge
  · rw [page_setPage hlt]
    split
    case isTrue => exact hdirty
    case isFalse => exact hg
  · rwa [setPage_of_le hge]

theorem load (h : b.Guards loyal id) (hb : b.Framed) (page : Page) :
    (b.load page).2.Guards loyal id := by
  obtain ⟨f, hf, hguarded⟩ := h
  have hpage : (b.load page).2.page f = b.page f := by
    rw [page_load, if_neg (Nat.ne_of_lt (hb id f hf).1)]
  exact ⟨f, hf, hpage.symm ▸ hguarded⟩

theorem discard (h : b.Guards loyal id) (hne : q ≠ id) : (b.discard q).Guards loyal id := by
  refine h.congr ?_ (fun f hf => ?_) fun who _ => ?_
  · rw [cached?_discard, if_neg hne]
  · rwa [page_congr (frames_discard b q)]
  · rw [holders_discard]

theorem enter (h : b.Guards loyal id) (hdirty : q = id → (b.page f).isDirty = true) :
    (b.enter q f).Guards loyal id := by
  by_cases hq : q = id
  · exact ⟨f, by rw [cached?_enter, if_pos hq], Or.inl (hdirty hq)⟩
  · refine h.congr ?_ (fun f hf => hf) fun who _ => rfl
    rw [cached?_enter, if_neg hq]

theorem add (h : b.Guards loyal id) (hne : q ≠ id) (hadd : b.add q f = .ok b') :
    b'.Guards loyal id := by
  rcases eq_of_add hadd with rfl | ⟨victim, hvictim, rfl⟩
  · exact h.enter fun heq => absurd heq hne
  · have hout : victim ≠ id := by
      rintro rfl
      exact h.not_isEvictable (List.find?_some hvictim)
    exact (h.discard hout).enter fun heq => absurd heq hne

end Guards

end Buffer

theorem Page.isDirty_markDirty (page : Page) (t : TxnId) : (page.markDirty t).isDirty = true := rfl

/-- A list without repetitions has its part in the order in which it has the elements. -/
theorem eq_filter_of_sublist {l l' : List PageId} {p : PageId → Bool} (h : l.Sublist l')
    (hnodup : l'.Nodup) (hmem : ∀ a, a ∈ l ↔ p a = true) : l = l'.filter p := by
  have hself : l.filter p = l := List.filter_eq_self.mpr fun a ha => (hmem a).mp ha
  have hsub : l.Sublist (l'.filter p) := hself ▸ h.filter p
  apply hsub.eq_of_length_le
  apply List.Subperm.length_le
  apply (hnodup.filter p).subperm
  exact fun a ha => (hmem a).mpr (List.mem_filter.mp ha).2

namespace Pool

variable {wild : Prop} {may : Deed → Prop} {loses : PageId → Loss → Prop} {p p' : Pool} {d : Deed}
  {ds : List Deed} {loyal : Holder → Prop} {used used' : List PageId} {id : PageId} {f : FrameId}
  {t : TxnId} {capacity : Nat}

/-- The cache and the order of use go together, and keep within the capacity. -/
structure Filled (wild : Prop) (capacity : Nat) (p : Pool) : Prop where
  housed : p.Housed wild
  listed : p.buffer.Listed
  capacity : p.buffer.capacity = capacity

/-- The action brings a page into the cache, and the first page that may go makes room for it.  If
no page may go the action is refused. -/
def Swaps {α : Type} (p : Pool) (id : PageId) (act : Act Pool α) (refused : Pool) : Prop :=
  (∃ victim a p', p.buffer.order.find? p.buffer.isEvictable = some victim ∧
      act.on p = (.ok (.ok a), p') ∧ p'.buffer.order = p.buffer.order.erase victim ++ [id]) ∨
    p.buffer.order.find? p.buffer.isEvictable = none ∧
      act.on p = (.ok (.error (.exhausted p.buffer.capacity)), refused)

/-- How pages come into a full cache. -/
structure MakesRoom (p : Pool) : Prop where
  /-- A page is fetched that can be read. -/
  full : ∀ id page p₁, id ∉ p.buffer.order → p.buffer.order.length = p.buffer.capacity →
    (readPage id).on p = (.ok (.ok page), p₁) → p.Swaps id (fetch id) p₁
  /-- A changed page comes back that left the cache in between. -/
  back : ∀ f t, f.number < p.buffer.frames.size → (p.page f).id ∉ p.buffer.order →
    p.buffer.order.length = p.buffer.capacity →
    p.Swaps (p.page f).id (track f t) (p.setPage f ((p.page f).markDirty t))

/-- One deed, and what it does to the order of use. -/
structure Minds (wild : Prop) (loses : PageId → Loss → Prop) (p : Pool) (d : Deed) (p' : Pool) :
    Prop where
  does : Does wild loses p d p'
  room : p.MakesRoom
  after : p.buffer.After d p'.buffer
  /-- A page leaves if it is lost, or if it is clean and nobody refers to it. -/
  leaves : ∀ id, id ∈ p.buffer.order → id ∉ p'.buffer.order →
    (∃ why, d = .lost id why ∧ loses id why) ∨ p.buffer.isEvictable id = true

/-! ## Making room -/

theorem Filled.fetch_full (hp : p.Filled wild capacity) (hid : id ∉ p.buffer.order)
    (hfull : p.buffer.order.length = p.buffer.capacity) {page : Page} {p₁ : Pool}
    (hread : (readPage id).on p = (.ok (.ok page), p₁)) : p.Swaps id (fetch id) p₁ := by
  have hlisted : (p.buffer.load page).2.Listed := hp.listed.congr rfl rfl rfl
  have hnone : p.buffer.isCached id = false := by
    rwa [← Bool.not_eq_true, ← hp.listed.mem_iff]
  have hroom := Buffer.add_full (b := p.buffer) hlisted hnone rfl rfl
    (hp.housed.framed.isEvictable_load page) hfull (p.buffer.load page).1
  have hfetched := fetched id p
  rw [Swaps]
  generalize (fetch id).on p = x at hfetched ⊢
  cases hfetched with
  | hit f hf => exact absurd ((hp.listed.mem_iff id).mpr (Buffer.isCached_iff.mpr ⟨f, hf⟩)) hid
  | unread e _ hunread => cases hunread.symm.trans hread
  | noRoom page' disk e _ hread' _ hadd =>
    obtain ⟨hpage, rfl⟩ := Prod.mk.inj (hread'.symm.trans hread)
    obtain rfl := Except.ok.inj (Except.ok.inj hpage)
    rcases hroom with ⟨victim, b, -, hadd', -⟩ | ⟨hvictim, hadd'⟩
    · cases hadd.symm.trans hadd'
    · obtain rfl := Except.error.inj (hadd.symm.trans hadd')
      exact Or.inr ⟨hvictim, rfl⟩
  | miss page' disk b _ hread' _ _ _ hadd =>
    obtain ⟨hpage, rfl⟩ := Prod.mk.inj (hread'.symm.trans hread)
    obtain rfl := Except.ok.inj (Except.ok.inj hpage)
    rcases hroom with ⟨victim, b', hvictim, hadd', horder⟩ | ⟨-, hadd'⟩
    · obtain rfl := Except.ok.inj (hadd'.symm.trans hadd)
      exact Or.inl ⟨victim, _, _, hvictim, rfl, horder⟩
    · cases hadd.symm.trans hadd'

theorem Filled.track_full (hp : p.Filled wild capacity) (hf : f.number < p.buffer.frames.size)
    (hid : (p.page f).id ∉ p.buffer.order) (hfull : p.buffer.order.length = p.buffer.capacity)
    (t : TxnId) : p.Swaps (p.page f).id (track f t) (p.setPage f ((p.page f).markDirty t)) := by
  have hlisted : (p.buffer.setPage f ((p.page f).markDirty t)).Listed :=
    hp.listed.congr rfl rfl rfl
  have hnone : p.buffer.isCached (p.page f).id = false := by
    rwa [← Bool.not_eq_true, ← hp.listed.mem_iff]
  have hroom := Buffer.add_full (b := p.buffer) hlisted hnone rfl rfl
    (hp.housed.framed.isEvictable_setPage hf hnone _) hfull f
  have htracked := tracked f t p
  rw [Swaps]
  generalize (track f t).on p = x at htracked ⊢
  cases htracked with
  | again hcached => cases hnone.symm.trans hcached
  | back b _ hadd =>
    rcases hroom with ⟨victim, b', hvictim, hadd', horder⟩ | ⟨-, hadd'⟩
    · obtain rfl := Except.ok.inj (hadd'.symm.trans hadd)
      exact Or.inl ⟨victim, _, _, hvictim, rfl, horder⟩
    · cases hadd.symm.trans hadd'
  | noRoom e _ hadd =>
    rcases hroom with ⟨victim, b, -, hadd', -⟩ | ⟨hvictim, hadd'⟩
    · cases hadd.symm.trans hadd'
    · obtain rfl := Except.error.inj (hadd.symm.trans hadd')
      exact Or.inr ⟨hvictim, rfl⟩

theorem Filled.makesRoom (hp : p.Filled wild capacity) : p.MakesRoom where
  full _ _ _ hid hfull hread := hp.fetch_full hid hfull hread
  back _ t hf hid hfull := hp.track_full hf hid hfull t

/-! ## Deed by deed -/

theorem Does.loses_of_lost {why : Loss} (h : Does wild loses p (.lost id why) p') :
    loses id why := by
  cases h with
  | unwritten _ _ _ hloses => exact hloses
  | lose _ _ hloses => exact hloses

theorem Does.minds (h : Does wild loses p d p') (hp : p.Filled wild capacity) :
    p'.Filled wild capacity ∧ p.Minds wild loses d p' := by
  have hreshaped := h.reshaped hp.housed.framed
  obtain ⟨hlisted, hafter⟩ := hreshaped.after hp.housed.framed hp.listed
  have hp' : p'.Filled wild capacity :=
    ⟨h.housed hp.housed, hlisted, hreshaped.capacity.trans hp.capacity⟩
  refine ⟨hp', h, hp.makesRoom, hafter, fun id hid hgone => (hafter.leaves hid hgone).imp_left ?_⟩
  rintro ⟨why, rfl⟩
  exact ⟨why, rfl, h.loses_of_lost⟩

theorem Course.minds (h : Course (Does wild loses) p ds p') (hp : p.Filled wild capacity) :
    p'.Filled wild capacity ∧ Course (Minds wild loses) p ds p' :=
  h.refine hp fun _ _ _ hp hdoes => hdoes.minds hp

theorem Course.sublist (h : Course (Minds wild loses) p ds p')
    (hused : p.buffer.order.Sublist used.dedup) :
    p'.buffer.order.Sublist (used ++ usesOf ds).dedup := by
  induction h with
  | nil => rwa [usesOf, List.filterMap_nil, List.append_nil]
  | snoc _ hminds ih =>
    have hlast := hminds.after.sublist ih
    rwa [usesOf, usesOf, List.append_assoc, ← List.filterMap_append] at hlast

theorem LeadsTo.filled (h : LeadsTo wild may used p p') (hp : p.Filled wild capacity) :
    p'.Filled wild capacity := by
  obtain ⟨ds, hcourse, -⟩ := h.course fun _ _ => id
  exact (hcourse.minds hp).1

/-- The pages of the cache stand in the order of their last uses. -/
theorem LeadsTo.order (h : LeadsTo wild may used p p') (hp : p.Filled wild capacity)
    (hempty : p.buffer.order = []) : p'.buffer.order = used.dedup.filter p'.buffer.isCached := by
  obtain ⟨ds, hcourse, rfl⟩ := h.course fun _ _ => id
  obtain ⟨hp', hminds⟩ := hcourse.minds hp
  have hsub : p'.buffer.order.Sublist ([] ++ usesOf ds).dedup :=
    hminds.sublist (hempty ▸ List.nil_sublist _)
  exact eq_filter_of_sublist hsub (List.nodup_dedup _) hp'.listed.mem_iff

/-! ## Pages that stay -/

/-- Only a deed that uses a page makes room. -/
theorem Minds.leaves_idle (h : p.Minds wild loses d p') (hidle : usesOf [d] = [])
    (hid : id ∈ p.buffer.order) (hgone : id ∉ p'.buffer.order) : ∃ why, loses id why := by
  have hafter := h.after
  cases d with
  | used q => cases hidle
  | lost q why =>
    rcases h.leaves id hid hgone with ⟨why', -, hloses⟩ | -
    · exact ⟨why', hloses⟩
    · have horder : p'.buffer.order = p.buffer.order.erase q := hafter
      by_cases hq : id = q
      · exact ⟨why, hq ▸ h.does.loses_of_lost⟩
      · exact absurd (horder ▸ (List.mem_erase_of_ne hq).mpr hid) hgone
  | _ =>
    have horder : p'.buffer.order = p.buffer.order := hafter
    exact absurd (horder ▸ hid) hgone

theorem LeadsTo.stays_idle (h : LeadsTo wild may [] p p') (hp : p.Filled wild capacity)
    (hid : id ∈ p.buffer.order) : id ∈ p'.buffer.order ∨ ∃ why, may (.lost id why) := by
  obtain ⟨ds, hcourse, hidle⟩ := h.course fun _ _ h => h
  obtain ⟨-, hminds⟩ := hcourse.minds hp
  clear h hcourse
  induction hminds with
  | nil => exact Or.inl hid
  | @snoc ds d p₁ p₂ _ hlast ih =>
    rw [usesOf_append, List.append_eq_nil_iff] at hidle
    rcases ih hidle.1 with hstays | hlost
    · by_cases hgone : id ∈ p₂.buffer.order
      · exact Or.inl hgone
      · exact Or.inr (hlast.leaves_idle hidle.2 hstays hgone)
    · exact Or.inr hlost

/-- A guarded page stays cached, unless it is lost or written back or let go of. -/
theorem Does.guards (h : Does wild loses p d p') (hp : p.Housed wild)
    (hg : p.buffer.Guards loyal id) (hwrote : ∀ r, d ≠ .wrote r) (hedited : d ≠ .edited)
    (hlost : ∀ why, d ≠ .lost id why) (hpinned : ∀ who, loyal who → d ≠ .pinned who) :
    p'.buffer.Guards loyal id := by
  have hframed := hp.framed
  have hout : ∀ q, p.buffer.isCached q = false → q ≠ id := by
    rintro q hnot rfl
    cases hnot.symm.trans hg.isCached
  cases h with
  | @fetch q f p' h =>
    have hfetched := fetched q p
    rw [h] at hfetched
    cases hfetched with
    | hit _ _ => exact hg.congr rfl (fun _ hdirty => hdirty) fun _ _ => rfl
    | miss page disk b hnone _ _ _ _ hadd =>
      exact (hg.load hframed page).add (hout q (Buffer.not_isCached_of_none hnone)) hadd
  | @fetchFailed q e p' h =>
    have hfetched := fetched q p
    rw [h] at hfetched
    cases hfetched with
    | unread _ _ _ => exact hg
    | noRoom _ _ _ _ _ _ _ => exact hg
  | change f t img _ => exact hg.setPage f (Page.isDirty_markDirty (p.page f) t)
  | @track f t p' hf h =>
    have hmarked : (p.buffer.setPage f ((p.page f).markDirty t)).Guards loyal id :=
      hg.setPage f (Page.isDirty_markDirty (p.page f) t)
    have hlt : f.number < p.buffer.frames.size :=
      hf.elim And.right fun ⟨q, hq⟩ => (hframed q f hq).1
    have htracked := tracked f t p
    rw [h] at htracked
    cases htracked with
    | again _ =>
      refine hmarked.enter fun _ => ?_
      rw [Buffer.page_setPage hlt, if_pos rfl]
      exact Page.isDirty_markDirty (p.page f) t
    | back b hnot hadd => exact hmarked.add (hout _ hnot) hadd
  | @trackFailed f t e p' _ h =>
    have htracked := tracked f t p
    rw [h] at htracked
    cases htracked with
    | noRoom e _ _ => exact hg.setPage f (Page.isDirty_markDirty (p.page f) t)
  | @append table q p' h =>
    rcases appendPage_any table p with ⟨q', disk, hon⟩ | ⟨e, hon⟩
    · obtain ⟨-, rfl⟩ := Prod.mk.inj (h.symm.trans hon)
      exact hg
    · cases h.symm.trans hon
  | write _ _ _ _ _ => exact absurd rfl (hwrote _)
  | @writeFailed f q x p₁ _ h _ =>
    have hbuffer := buffer_writeBack (p.page f) p
    rw [h] at hbuffer
    rwa [hbuffer]
  | @unwritten f q t e p₁ _ _ h _ =>
    have hbuffer := buffer_writeBack (p.page f) p
    rw [h] at hbuffer
    have hset : (p₁.discard q).buffer = p.buffer.discard q :=
      congrArg (fun b => b.discard q) hbuffer
    rw [hset]
    exact hg.discard fun heq => hlost (.unwritten t) (heq ▸ rfl)
  | lose q why _ => exact hg.discard fun heq => hlost why (heq ▸ rfl)
  | pin who hothers =>
    refine hg.congr rfl (fun _ hdirty => hdirty) fun who' hloyal => hothers who' ?_
    rintro rfl
    exact hpinned who' hloyal rfl
  | arrange hbuffer _ _ => rwa [hbuffer]
  | edit _ _ _ _ => exact absurd rfl hedited

theorem LeadsTo.stays_guarded (h : LeadsTo wild may used p p') (hp : p.Housed wild)
    (hwrote : ∀ r, ¬ may (.wrote r)) (hedited : ¬ may .edited)
    (hpinned : ∀ who, loyal who → ¬ may (.pinned who)) (hg : p.buffer.Guards loyal id) :
    p'.buffer.Guards loyal id ∨ ∃ why, may (.lost id why) := by
  obtain ⟨ds, hcourse, -⟩ := h
  have hboth : p'.Housed wild ∧ (p'.buffer.Guards loyal id ∨ ∃ why, may (.lost id why)) := by
    refine hcourse.invariant (I := fun p => p.Housed wild ∧ (p.buffer.Guards loyal id ∨
      ∃ why, may (.lost id why))) ⟨hp, Or.inl hg⟩ fun p d p' ⟨hp, hstays⟩ ⟨hmay, hdoes⟩ => ?_
    refine ⟨hdoes.housed hp, ?_⟩
    rcases hstays with hg | hlost
    · by_cases hd : ∃ why, d = .lost id why
      · obtain ⟨why, rfl⟩ := hd
        exact Or.inr ⟨why, hmay⟩
      · refine Or.inl (hdoes.guards hp hg ?_ ?_ (not_exists.mp hd) ?_)
        · rintro r rfl
          exact hwrote r hmay
        · rintro rfl
          exact hedited hmay
        · rintro who hloyal rfl
          exact hpinned who hloyal hmay
    · exact Or.inr hlost
  exact hboth.2

theorem buffer_of_fetch_failed {e : Error} (h : (fetch id).on p = (.ok (.error e), p')) :
    p'.buffer = p.buffer := by
  have hfetched := fetched id p
  rw [h] at hfetched
  cases hfetched with
  | unread _ _ _ => rfl
  | noRoom _ _ _ _ _ _ _ => rfl

end Pool

end PagedHeap
