import PagedHeap.Journal
import PagedHeap.Proofs.Pool.Order

/-!
# Deeds and the buffer

Whatever is done to a pool, the buffer is changed in one of a few ways, and with it the order of
use.
-/

namespace PagedHeap

/-- How a page leaves the cache, other than by making room. -/
inductive Loss where
  | discarded
  /-- Its store let go of it while a row was changed. -/
  | dismissed
  /-- A transaction that had locked it was aborted. -/
  | aborted (txn : TxnId)
  /-- It could not be written when its dirtier committed. -/
  | unwritten (txn : TxnId)

inductive Deed where
  /-- The page was fetched, or an operation on its rows was tracked. -/
  | used (id : PageId)
  | lost (id : PageId) (why : Loss)
  | wrote (r : UpdateRecord)
  | appended (id : PageId)
  /-- Somebody refers to a frame, or does so no longer. -/
  | pinned (who : Holder)
  /-- The page in a frame was overwritten. -/
  | edited
  | other

/-- The pages that were used, in the order of their uses. -/
def usesOf (ds : List Deed) : List PageId :=
  ds.filterMap fun
    | .used id => some id
    | _ => none

theorem usesOf_append (ds ds' : List Deed) : usesOf (ds ++ ds') = usesOf ds ++ usesOf ds' :=
  List.filterMap_append

/-- The pages that an action uses, which depend on what it comes to.  If it fails, it uses none. -/
def usedBy {α : Type} (uses : α → List PageId) : Checked (Except Error α) → List PageId
  | .ok (.ok a) => uses a
  | _ => []

theorem usedBy_none {α : Type} (x : Checked (Except Error α)) : usedBy (fun _ => []) x = [] := by
  rcases x with fault | e | a
  · rfl
  · rfl
  · rfl

namespace Deed

/-- What it comes down to that pages are fetched, appended, changed and tracked. -/
def OfRows : Deed → Prop
  | .used _ => True
  | .appended _ => True
  | .other => True
  | _ => False

/-- What it comes down to that pages are written back, or dropped. -/
def OfUpkeep (loses : PageId → Loss → Prop) : Deed → Prop
  | .lost id why => loses id why
  | .wrote _ => True
  | .other => True
  | _ => False

/-- What the turn of a call comes down to.  It writes no page back, and overwrites none.  Besides
its operation only the handle may refer to another frame that the fetched page is to be kept
under. -/
def OfCall (wild : Prop) (t : TxnId) (keep : Option HandleId) : Deed → Prop
  | .lost _ why => wild ∧ why = .dismissed
  | .pinned (.operation u) => u = t
  | .pinned (.handle h) => keep = some h
  | .wrote _ => False
  | .edited => False
  | _ => True

theorem OfRows.ofCall {wild : Prop} {t : TxnId} {keep : Option HandleId} {d : Deed} (h : d.OfRows) :
    d.OfCall wild t keep := by
  cases d with
  | used id => exact trivial
  | appended id => exact trivial
  | other => exact trivial
  | _ => exact h.elim

end Deed

/-- The changes of a buffer that deeds come down to. -/
inductive Buffer.Reshaped (b : Buffer) : Deed → Buffer → Prop
  | hit {id : PageId} {f : FrameId} (hf : b.cached? id = some f) :
      Reshaped b (.used id) (b.touch id)
  | miss {id : PageId} {page : Page} {b' : Buffer} (hnone : b.cached? id = none)
      (hid : page.id = id) (hadd : (b.load page).2.add id (b.load page).1 = .ok b') :
      Reshaped b (.used id) b'
  | again {f : FrameId} {page : Page} (hf : f.number < b.frames.size)
      (hid : page.id = (b.page f).id) (hcached : b.isCached (b.page f).id = true) :
      Reshaped b (.used (b.page f).id) ((b.setPage f page).enter (b.page f).id f)
  | back {f : FrameId} {page : Page} {b' : Buffer} (hf : f.number < b.frames.size)
      (hid : page.id = (b.page f).id) (hcached : b.isCached (b.page f).id = false)
      (hadd : (b.setPage f page).add (b.page f).id f = .ok b') : Reshaped b (.used (b.page f).id) b'
  | revise {d : Deed} {f : FrameId} {page : Page} (hid : page.id = (b.page f).id)
      (hused : ∀ id, d ≠ .used id) (hlost : ∀ id why, d ≠ .lost id why) :
      Reshaped b d (b.setPage f page)
  | loss (id : PageId) (why : Loss) : Reshaped b (.lost id why) (b.discard id)
  | pin {who : Holder} {holders : SortedMap Holder FrameId}
      (hothers : ∀ who', who' ≠ who → holders.get? who' = b.holders.get? who') :
      Reshaped b (.pinned who) { b with holders }
  | same {d : Deed} (hused : ∀ id, d ≠ .used id) (hlost : ∀ id why, d ≠ .lost id why) :
      Reshaped b d b

namespace Buffer

variable {b b' : Buffer} {d : Deed} {f : FrameId} {page : Page} {id : PageId}

namespace Reshaped

theorem framed (h : b.Reshaped d b') (hb : b.Framed) : b'.Framed := by
  cases h with
  | hit _ => exact hb.congr rfl rfl
  | @miss id page b' hnone hid hadd =>
    have hpage : (b.load page).2.page (b.load page).1 = page := by
      rw [page_load]
      exact if_pos rfl
    exact (added_of_add (hb.load page) (by simp [Buffer.load]) (hpage.symm ▸ hid) hadd).1.framed
  | @again f page hf hid _ =>
    have hlt : f.number < (b.setPage f page).frames.size := by
      rwa [setPage, Array.size_setIfInBounds]
    exact (hb.revise hid).enter hlt (id_setPage hid f)
  | @back f page b' hf hid _ hadd =>
    have hlt : f.number < (b.setPage f page).frames.size := by
      rwa [setPage, Array.size_setIfInBounds]
    exact (added_of_add (hb.revise hid) hlt (id_setPage hid f) hadd).1.framed
  | revise hid _ _ => exact hb.revise hid
  | loss id why => exact hb.discard id
  | pin _ => exact hb
  | same _ _ => exact hb

theorem frames_le (h : b.Reshaped d b') : b.frames.size ≤ b'.frames.size := by
  cases h with
  | hit _ => exact Nat.le_refl _
  | miss _ _ hadd =>
    rw [frames_add hadd]
    simp [Buffer.load]
  | again _ _ _ => exact Nat.le_of_eq (by simp [enter, Buffer.touch, setPage])
  | back _ _ _ hadd =>
    rw [frames_add hadd]
    simp [setPage]
  | revise _ _ _ => exact Nat.le_of_eq (by simp [setPage])
  | loss id why => exact Nat.le_of_eq (by rw [frames_discard])
  | pin _ => exact Nat.le_refl _
  | same _ _ => exact Nat.le_refl _

theorem capacity (h : b.Reshaped d b') : b'.capacity = b.capacity := by
  cases h with
  | hit _ => rfl
  | miss _ _ hadd => exact (capacity_add hadd :)
  | again _ _ _ => rfl
  | back _ _ _ hadd => exact (capacity_add hadd :)
  | revise _ _ _ => rfl
  | loss id why => exact capacity_discard b id
  | pin _ => rfl
  | same _ _ => rfl

theorem id_page (h : b.Reshaped d b') (hf : f.number < b.frames.size) :
    (b'.page f).id = (b.page f).id := by
  cases h with
  | hit _ => rfl
  | @miss id page b' _ _ hadd =>
    rw [page_congr (frames_add hadd), page_load, if_neg (Nat.ne_of_lt hf)]
  | again _ hid _ => exact id_setPage hid f
  | back _ hid _ hadd =>
    rw [page_congr (frames_add hadd)]
    exact id_setPage hid f
  | revise hid _ _ => exact id_setPage hid f
  | loss id why => rw [page_congr (frames_discard b id)]
  | pin _ => rfl
  | same _ _ => rfl

/-- Who refers to which frame is changed by the deeds that say so. -/
theorem holders {who : Holder} (h : b.Reshaped d b') (hd : d ≠ .pinned who) :
    b'.holders.get? who = b.holders.get? who := by
  cases h with
  | hit _ => rfl
  | miss _ _ hadd => exact congrArg (fun holders => holders.get? who) (holders_add hadd :)
  | again _ _ _ => rfl
  | back _ _ _ hadd => exact congrArg (fun holders => holders.get? who) (holders_add hadd :)
  | revise _ _ _ => rfl
  | loss id why => rw [holders_discard]
  | @pin who' holders hothers => exact hothers who fun heq => hd (heq ▸ rfl)
  | same _ _ => rfl

end Reshaped

/-! ## What a deed does to the order of use -/

/-- What becomes of the order: a page that is used goes to the end, a page that is lost is taken
out, and nothing else has any effect. -/
def After (b : Buffer) : Deed → Buffer → Prop
  | .used id, b' => b.Uses id b'
  | .lost id _, b' => b'.order = b.order.erase id
  | _, b' => b'.order = b.order

/-- A page leaves if it is lost, or to make room. -/
theorem After.leaves (h : b.After d b') (hid : id ∈ b.order) (hgone : id ∉ b'.order) :
    (∃ why, d = .lost id why) ∨ b.isEvictable id = true := by
  cases d with
  | used used =>
    cases h with
    | again _ horder =>
      refine absurd ?_ hgone
      rw [horder, List.mem_append, List.mem_singleton]
      by_cases heq : id = used
      · exact Or.inr heq
      · exact Or.inl ((List.mem_erase_of_ne heq).mpr hid)
    | first _ _ horder => exact absurd (horder ▸ List.mem_append_left _ hid) hgone
    | instead victim _ _ hvictim horder =>
      by_cases heq : id = victim
      · exact Or.inr (heq ▸ List.find?_some hvictim)
      · have hstays : id ∈ b.order.erase victim := (List.mem_erase_of_ne heq).mpr hid
        exact absurd (horder ▸ List.mem_append_left _ hstays) hgone
  | lost lost why =>
    have horder : b'.order = b.order.erase lost := h
    by_cases heq : id = lost
    · exact Or.inl ⟨why, heq ▸ rfl⟩
    · exact absurd (horder ▸ (List.mem_erase_of_ne heq).mpr hid) hgone
  | _ =>
    have horder : b'.order = b.order := h
    exact absurd (horder ▸ hid) hgone

/-- A page comes into the cache when it is used. -/
theorem After.enters (h : b.After d b') (hid : id ∈ b'.order) : id ∈ b.order ∨ d = .used id := by
  cases d with
  | used used =>
    have hsplit : ∀ rest : List PageId, (∀ q ∈ rest, q ∈ b.order) → b'.order = rest ++ [used] →
        id ∈ b.order ∨ Deed.used used = .used id := by
      intro rest hrest horder
      rw [horder, List.mem_append, List.mem_singleton] at hid
      exact hid.imp (hrest id) fun heq => congrArg Deed.used heq.symm
    cases h with
    | again _ horder => exact hsplit _ (fun _ => List.mem_of_mem_erase) horder
    | first _ _ horder => exact hsplit _ (fun _ hq => hq) horder
    | instead _ _ _ _ horder => exact hsplit _ (fun _ => List.mem_of_mem_erase) horder
  | lost lost why =>
    have horder : b'.order = b.order.erase lost := h
    exact Or.inl (List.mem_of_mem_erase (horder ▸ hid))
  | _ =>
    have horder : b'.order = b.order := h
    exact Or.inl (horder ▸ hid)

/-- The order of use is that of the last uses. -/
theorem After.sublist {used : List PageId} (h : b.After d b')
    (hused : b.order.Sublist used.dedup) : b'.order.Sublist (used ++ usesOf [d]).dedup := by
  cases d with
  | used id => exact h.sublist hused
  | lost id why =>
    have horder : b'.order = b.order.erase id := h
    simp only [usesOf, List.filterMap_cons, List.filterMap_nil, List.append_nil]
    rw [horder]
    exact (List.erase_sublist ..).trans hused
  | _ =>
    have horder : b'.order = b.order := h
    simp only [usesOf, List.filterMap_cons, List.filterMap_nil, List.append_nil]
    rw [horder]
    exact hused

theorem isEvictable_congr (hcache : b'.cache = b.cache) (hholders : b'.holders = b.holders)
    (hpage : ∀ f, b.cached? id = some f → b'.page f = b.page f) :
    b'.isEvictable id = b.isEvictable id := by
  have hcached : b'.cached? id = b.cached? id := by rw [cached?, cached?, hcache]
  rw [isEvictable, isEvictable, hcached]
  cases hf : b.cached? id with
  | none => rfl
  | some f =>
    simp only
    rw [isPinned, isPinned, hholders, hpage f hf]

theorem Uses.congr {b₁ : Buffer} (h : b₁.Uses id b') (horder : b₁.order = b.order)
    (hcapacity : b₁.capacity = b.capacity)
    (hevictable : ∀ q, b₁.isEvictable q = b.isEvictable q) : b.Uses id b' := by
  have hsame : b₁.isEvictable = b.isEvictable := funext hevictable
  cases h with
  | again hid horder' => exact .again (horder ▸ hid) (horder ▸ horder')
  | first hid hroom horder' =>
    exact .first (horder ▸ hid) (horder ▸ hcapacity ▸ hroom) (horder ▸ horder')
  | instead victim hid hfull hvictim horder' =>
    rw [horder, hsame] at hvictim
    exact .instead victim (horder ▸ hid) (horder ▸ hcapacity ▸ hfull) hvictim (horder ▸ horder')

theorem Framed.isEvictable_load (hb : b.Framed) (page : Page) (q : PageId) :
    (b.load page).2.isEvictable q = b.isEvictable q := by
  refine isEvictable_congr rfl rfl fun f hf => ?_
  rw [page_load, if_neg (Nat.ne_of_lt (hb q f hf).1)]

/-- Changing a frame that is not cached makes no page evictable. -/
theorem Framed.isEvictable_setPage (hb : b.Framed) (hf : f.number < b.frames.size)
    (hcached : b.isCached (b.page f).id = false) (page : Page) (q : PageId) :
    (b.setPage f page).isEvictable q = b.isEvictable q := by
  refine isEvictable_congr rfl rfl fun g hg => ?_
  have hne : f ≠ g := by
    rintro rfl
    rw [(hb q f hg).2, isCached_iff.mpr ⟨f, hg⟩] at hcached
    cases hcached
  rw [page_setPage hf, if_neg hne]

/-- What becomes of adding a page depends on the order and on what may go. -/
theorem add_after {b₁ : Buffer} (hb : b₁.Listed) (hnone : b₁.isCached id = false)
    (horder : b₁.order = b.order) (hcapacity : b₁.capacity = b.capacity)
    (hevictable : ∀ q, b₁.isEvictable q = b.isEvictable q) (f : FrameId) :
    (∃ b', b₁.add id f = .ok b' ∧ b'.Listed ∧ b.Uses id b') ∨
      b₁.add id f = .error (.exhausted b.capacity) ∧ b.order.length = b.capacity ∧
        b.order.find? b.isEvictable = none := by
  have hid : id ∉ b₁.order := fun hmem => by
    rw [(hb.mem_iff id).mp hmem] at hnone
    cases hnone
  have hsame : b₁.isEvictable = b.isEvictable := funext hevictable
  rcases hb.add_cases hid f with ⟨b', hadd, hb', huses⟩ | ⟨hadd, hfull, hvictim⟩
  · exact Or.inl ⟨b', hadd, hb', huses.congr horder hcapacity hevictable⟩
  · rw [hcapacity] at hadd hfull
    rw [horder] at hfull hvictim
    rw [hsame] at hvictim
    exact Or.inr ⟨hadd, hfull, hvictim⟩

/-- When the cache is full, one page gives way, or there is no room. -/
theorem add_full {b₁ : Buffer} (hb : b₁.Listed) (hnone : b₁.isCached id = false)
    (horder : b₁.order = b.order) (hcapacity : b₁.capacity = b.capacity)
    (hevictable : ∀ q, b₁.isEvictable q = b.isEvictable q) (hfull : b.order.length = b.capacity)
    (f : FrameId) :
    (∃ victim b', b.order.find? b.isEvictable = some victim ∧ b₁.add id f = .ok b' ∧
        b'.order = b.order.erase victim ++ [id]) ∨
      b.order.find? b.isEvictable = none ∧ b₁.add id f = .error (.exhausted b.capacity) := by
  rcases add_after hb hnone horder hcapacity hevictable f with
    ⟨b', hadd, -, huses⟩ | ⟨hadd, -, hvictim⟩
  · cases huses with
    | again hid _ =>
      rw [(hb.mem_iff id).mp (horder ▸ hid)] at hnone
      cases hnone
    | first _ hroom _ => exact absurd hroom (Nat.not_lt.mpr (Nat.le_of_eq hfull.symm))
    | instead victim _ _ hvictim horder' => exact Or.inl ⟨victim, b', hvictim, hadd, horder'⟩
  · exact Or.inr ⟨hvictim, hadd⟩

theorem not_isCached_of_none (hnone : b.cached? id = none) : b.isCached id = false := by
  rw [← Bool.not_eq_true, isCached_iff, hnone]
  exact nofun

theorem Reshaped.after (h : b.Reshaped d b') (hb : b.Framed) (hl : b.Listed) :
    b'.Listed ∧ b.After d b' := by
  have hother : ∀ b', b'.order = b.order → (∀ id, d ≠ .used id) → (∀ id why, d ≠ .lost id why) →
      b.After d b' := by
    intro b' horder hused hlost
    cases d with
    | used id => exact absurd rfl (hused id)
    | lost id why => exact absurd rfl (hlost id why)
    | _ => exact horder
  cases h with
  | @hit id f hf =>
    have hcached := isCached_iff.mpr ⟨f, hf⟩
    exact ⟨hl.touch hcached, .again ((hl.mem_iff id).mpr hcached) (hl.order_touch id)⟩
  | @miss id page b' hnone hid hadd =>
    have hl₁ : (b.load page).2.Listed := hl.congr rfl rfl rfl
    rcases add_after (b := b) hl₁ (not_isCached_of_none hnone) rfl rfl (hb.isEvictable_load page)
        (b.load page).1 with ⟨b'', hadd', hl', huses⟩ | ⟨hadd', -, -⟩
    · obtain rfl := Except.ok.inj (hadd'.symm.trans hadd)
      exact ⟨hl', huses⟩
    · cases hadd'.symm.trans hadd
  | @again f page hf hid hcached =>
    have hl₁ : (b.setPage f page).Listed := hl.congr rfl rfl rfl
    exact ⟨hl₁.enter f (Or.inl hcached), .again ((hl.mem_iff _).mpr hcached) (hl₁.order_enter _ f)⟩
  | @back f page b' hf hid hcached hadd =>
    have hl₁ : (b.setPage f page).Listed := hl.congr rfl rfl rfl
    rcases add_after (b := b) hl₁ hcached rfl rfl (hb.isEvictable_setPage hf hcached page) f with
      ⟨b'', hadd', hl', huses⟩ | ⟨hadd', -, -⟩
    · obtain rfl := Except.ok.inj (hadd'.symm.trans hadd)
      exact ⟨hl', huses⟩
    · cases hadd'.symm.trans hadd
  | revise hid hused hlost => exact ⟨hl.congr rfl rfl rfl, hother _ rfl hused hlost⟩
  | loss id why => exact ⟨hl.discard id, hl.order_discard id⟩
  | pin _ => exact ⟨hl.congr rfl rfl rfl, rfl⟩
  | same hused hlost => exact ⟨hl, hother _ rfl hused hlost⟩

end Buffer

end PagedHeap
