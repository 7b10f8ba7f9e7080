import Mathlib.Data.List.Basic
import PagedHeap.Proofs.Pool.WriteBack

/-!
# Settling

A commit settles one page after the other.  Whether a page is written is up to what the log says to
the calls made for it, and to the catalog and the store of the page; writing other pages has no part
in it but for the calls that were made for them.  So what comes of all of them can be told from the
pool as it was before, and from the verdicts of the log.
-/

namespace PagedHeap

namespace Store

variable {s s' : Store}

/-- What decides whether the store takes a page. -/
def device (s : Store) : TableId × List UInt32 :=
  (s.volume.table, s.faults.unwritable)

theorem write_eq (s : Store) (page : Page) :
    s.write page = if s.faults.unwritable.contains page.id.pageNo then .error (.device "disk full")
      else (s.volume.write page).map fun volume => { s with volume } := by
  rw [write]
  split
  · rfl
  · cases s.volume.write page with
    | error e => rfl
    | ok v => rfl

theorem device_write {page : Page} (h : s.write page = .ok s') : s'.device = s.device := by
  rw [write_eq] at h
  split at h
  · cases h
  · simp only [Volume.write] at h
    split at h
    · cases h
      rfl
    · cases h

/-- Stores that are alike refuse a page alike. -/
theorem error_write_congr (h : s'.device = s.device) (page : Page) (e : Error) :
    s'.write page = .error e ↔ s.write page = .error e := by
  obtain ⟨htable, hunwritable⟩ := Prod.mk.inj h
  have howns : s'.volume.owns page.id = s.volume.owns page.id :=
    congrArg (fun table => page.id.table == table) htable
  rw [write_eq, write_eq, hunwritable]
  split
  · exact Iff.rfl
  · simp only [Volume.write, howns, htable]
    split
    · constructor <;> intro h <;> cases h
    · exact Iff.rfl

end Store

namespace Disk

variable {d : Disk} {s s' : Store} {id q : PageId} {page : Page}

/-- What lies at the place of a page, be it within the file or not. -/
def block? (d : Disk) (id : PageId) : Option Image :=
  (d.store? id.table).map fun s => s.volume.image id.pageNo

/-- What a page cannot be written for. -/
def failure? (d : Disk) (page : Page) : Option Error :=
  match d.lookup page.id.table with
  | .error e => some e
  | .ok store => match store.write page with
    | .error e => some e
    | .ok _ => none

theorem failure?_cases (d : Disk) (page : Page) :
    (∃ e, d.failure? page = some e ∧ (d.lookup page.id.table = .error e ∨
      ∃ s, d.lookup page.id.table = .ok s ∧ s.write page = .error e)) ∨
    d.failure? page = none ∧
      ∃ s s', d.lookup page.id.table = .ok s ∧ s.write page = .ok s' := by
  rw [failure?]
  cases d.lookup page.id.table with
  | error e => exact Or.inl ⟨e, rfl, Or.inl rfl⟩
  | ok s =>
    cases hwrite : s.write page with
    | error e => exact Or.inl ⟨e, by simp only [hwrite], Or.inr ⟨s, rfl, hwrite⟩⟩
    | ok s' => exact Or.inr ⟨by simp only [hwrite], s, s', rfl, hwrite⟩

/-- Writes a page back behind its log record: what that fails for, if it does, and the journal that
it leaves. -/
def fate (d : Disk) (j : Journal) (page : Page) : Option Error × Journal :=
  match j.logged page with
  | (some e, j) => (some e, j)
  | (none, j) => match d.failure? page with
    | some e => (some e, j)
    | none => (none, j.record (.written page.id page.image))

/-- What becomes of pages that are written back one after the other, whichever of them fail. -/
def fates (d : Disk) (j : Journal) : List Page → List (Page × Option Error) × Journal
  | [] => ([], j)
  | page :: rest =>
    let (failure, j) := d.fate j page
    let (fates, j) := d.fates j rest
    ((page, failure) :: fates, j)

theorem fates_cons (d : Disk) (j : Journal) (page : Page) (rest : List Page) :
    d.fates j (page :: rest) = ((page, (d.fate j page).1) :: (d.fates (d.fate j page).2 rest).1,
      (d.fates (d.fate j page).2 rest).2) := rfl

theorem fates_append (d : Disk) (j : Journal) (pages pages' : List Page) :
    d.fates j (pages ++ pages') =
      ((d.fates j pages).1 ++ (d.fates (d.fates j pages).2 pages').1,
        (d.fates (d.fates j pages).2 pages').2) := by
  induction pages generalizing j with
  | nil => rfl
  | cons page rest ih => rw [List.cons_append, fates_cons, ih, fates_cons, List.cons_append]

/-- Every page is attempted, in the order in which they are given. -/
theorem pages_fates (d : Disk) (j : Journal) (pages : List Page) :
    (d.fates j pages).1.map Prod.fst = pages := by
  induction pages generalizing j with
  | nil => rfl
  | cons page rest ih => rw [fates_cons, List.map_cons, ih]

/-- A page was written to its place, and nothing else has changed. -/
structure Overwritten (a b : Disk) (page : Page) : Prop where
  catalog : b.catalog = a.catalog
  device : ∀ table, (b.store? table).map Store.device = (a.store? table).map Store.device
  block? : ∀ q, b.block? q = if q = page.id then some page.image else a.block? q
  within : page.id.pageNo.toNat < b.pages page.id.table
  pages_le : ∀ table, a.pages table ≤ b.pages table
  pages_eq : page.id.pageNo.toNat < a.pages page.id.table → ∀ table, b.pages table = a.pages table

theorem overwritten_put (hs : d.store? page.id.table = some s) (h : s.write page = .ok s') :
    Overwritten d (d.put page.id.table s') page := by
  have hmedium := (write_eq_ok h).2.2
  have hput := store?_put d page.id.table
  refine ⟨rfl, fun table => ?_, fun q => ?_, ?_, pages_le_put hs hmedium, fun hwithin table => ?_⟩
  · rw [hput]
    split
    case isTrue heq => rw [← heq, hs, Option.map_some, Option.map_some, Store.device_write h]
    case isFalse => rfl
  · rw [Disk.block?, hput]
    by_cases htable : q.table = page.id.table
    · rw [if_pos htable.symm, Option.map_some, image_written hmedium, Disk.block?, htable, hs]
      by_cases hq : q = page.id
      · rw [if_pos hq, if_pos (congrArg (fun id => id.pageNo.toNat) hq.symm)]
      · rw [if_neg hq, if_neg fun hno => hq (PageId.eq_of_toNat htable hno.symm), Option.map_some]
    · rw [if_neg (Ne.symm htable), if_neg fun hq => htable (congrArg PageId.table hq), Disk.block?]
  · rw [pages_put, if_pos rfl, hmedium, Nat.lt_div_iff_mul_lt (by decide)]
    have hend : (page.id.pageNo.toNat + 1) * pageSize ≤
        (s.volume.medium.writeBlock page.id.pageNo.toNat page.image).length := Nat.le_max_right _ _
    have hpos : 0 < pageSize := by decide
    rw [Nat.succ_mul] at hend
    omega
  · rw [pages_put]
    split
    case isTrue heq =>
      rw [pages_eq hs] at hwithin
      rw [← heq, pages_eq hs, hmedium, Medium.length_writeBlock_of_lt hwithin]
    case isFalse => rfl

end Disk

namespace Pool

open Disk

variable {p p' p'' : Pool} {t : TxnId} {id q : PageId} {page : Page} {ids : List PageId} {e : Error}

/-! ## One page -/

/-- Writing a page back comes to its fate. -/
theorem writeBack_fate (page : Page) (p : Pool) :
    (∃ e, (p.disk.fate p.journal page).1 = some e ∧ (writeBack page).on p =
      (.ok (.error e), p.withJournal (p.disk.fate p.journal page).2)) ∨
    (p.disk.fate p.journal page).1 = none ∧ ∃ disk, Overwritten p.disk disk page ∧
      (writeBack page).on p = (.ok (.ok ()), ⟨p.buffer, disk, (p.disk.fate p.journal page).2⟩) := by
  rw [on_writeBack, fate]
  rcases p.journal.logged page with ⟨_ | e, journal⟩
  case some => exact Or.inl ⟨e, rfl, rfl⟩
  case none =>
    rcases failure?_cases p.disk page with ⟨e, hfailed, hlookup | ⟨store, hlookup, hwrite⟩⟩ |
      ⟨hnone, store, store', hlookup, hwrite⟩
    · exact Or.inl ⟨e, by simp only [hfailed], by simp only [hfailed, hlookup]⟩
    · exact Or.inl ⟨e, by simp only [hfailed], by simp only [hfailed, hlookup, hwrite]⟩
    · exact Or.inr ⟨by simp only [hnone], _, overwritten_put (store?_of_lookup hlookup).1 hwrite,
        by simp only [hnone, hlookup, hwrite]⟩

/-- What decides whether stores take pages has stayed as it was. -/
structure Persists (p p' : Pool) : Prop where
  catalog : p'.disk.catalog = p.disk.catalog
  device : ∀ table,
    (p'.disk.store? table).map Store.device = (p.disk.store? table).map Store.device

namespace Persists

theorem refl (p : Pool) : p.Persists p :=
  ⟨rfl, fun _ => rfl⟩

theorem trans (h : p.Persists p') (h' : p'.Persists p'') : p.Persists p'' :=
  ⟨h'.catalog.trans h.catalog, fun table => (h'.device table).trans (h.device table)⟩

theorem failure? (h : p.Persists p') (page : Page) :
    p'.disk.failure? page = p.disk.failure? page := by
  rw [Disk.failure?, Disk.failure?, lookup, lookup, h.catalog]
  have hdevice := h.device page.id.table
  cases hs : p.disk.store? page.id.table with
  | none =>
    rw [hs] at hdevice
    rw [Option.map_eq_none_iff.mp hdevice]
  | some s =>
    rw [hs] at hdevice
    obtain ⟨s', hs', heq⟩ := Option.map_eq_some_iff.mp hdevice
    rw [hs']
    cases p.disk.catalog.contains page.id.table with
    | false => rfl
    | true =>
      have hwrite := Store.error_write_congr heq page
      simp only
      cases hold : s.write page with
      | error e => rw [(hwrite e).mpr hold]
      | ok _ =>
        cases hnew : s'.write page with
        | error e => cases hold.symm.trans ((hwrite e).mp hnew)
        | ok _ => rfl

/-- Pages fare alike when the same has been said by the log. -/
theorem fates (h : p.Persists p') (j : Journal) (pages : List Page) :
    p'.disk.fates j pages = p.disk.fates j pages := by
  induction pages generalizing j with
  | nil => rfl
  | cons page rest ih =>
    have hfate : p'.disk.fate j page = p.disk.fate j page := by
      rw [fate, fate, h.failure?]
    rw [fates_cons, fates_cons, hfate, ih]

end Persists

/-- The page is in the cache and on disk what it was. -/
structure Spares (p p' : Pool) (id : PageId) : Prop where
  cache : p'.cachedPage? id = p.cachedPage? id
  disk : p'.disk.block? id = p.disk.block? id

theorem Spares.trans (h : p.Spares p' id) (h' : p'.Spares p'' id) : p.Spares p'' id :=
  ⟨h'.cache.trans h.cache, h'.disk.trans h.disk⟩

/-! ## Page after page -/

/-- The page, if it is cached with changes of the transaction. -/
def dirtied? (p : Pool) (t : TxnId) (id : PageId) : Option Page :=
  (p.cachedPage? id).filter fun page => page.dirtier = some t

def dirtied (p : Pool) (t : TxnId) (ids : List PageId) : List Page :=
  ids.filterMap (p.dirtied? t)

/-- What becomes of the pages with changes of the transaction. -/
def fates (p : Pool) (t : TxnId) (ids : List PageId) : List (Page × Option Error) × Journal :=
  p.disk.fates p.journal (p.dirtied t ids)

/-- The pages that failed, each with what it failed for. -/
def failures (fates : List (Page × Option Error)) : List (PageId × Error) :=
  fates.filterMap fun (page, failure) => failure.map (Prod.mk page.id)

theorem dirtied_cons (p : Pool) (t : TxnId) (id : PageId) (ids : List PageId) :
    p.dirtied t (id :: ids) = p.dirtied t [id] ++ p.dirtied t ids :=
  List.filterMap_append (l := [id])

theorem dirtied_single (p : Pool) (t : TxnId) (id : PageId) :
    p.dirtied t [id] = (p.dirtied? t id).toList := by
  rw [dirtied, List.filterMap_cons]
  cases p.dirtied? t id <;> rfl

theorem dirtied?_eq_some :
    p.dirtied? t id = some page ↔ p.cachedPage? id = some page ∧ page.dirtier = some t := by
  rw [dirtied?, Option.filter_eq_some_iff, decide_eq_true_iff]

theorem mem_dirtied (hp : p.buffer.Framed) :
    page ∈ p.dirtied t ids ↔ page.id ∈ ids ∧ p.dirtied? t page.id = some page := by
  rw [dirtied, List.mem_filterMap]
  constructor
  · rintro ⟨id, hid, hpage⟩
    obtain rfl := hp.named (dirtied?_eq_some.mp hpage).1
    exact ⟨hid, hpage⟩
  · exact fun ⟨hid, hpage⟩ => ⟨page.id, hid, hpage⟩

theorem dirtied_ascending (hp : p.buffer.Framed) (t : TxnId)
    (hids : ids.Pairwise fun a b => rank a < rank b) :
    (p.dirtied t ids).Pairwise fun a b => rank a.id < rank b.id := by
  refine List.Pairwise.filterMap _ (fun id q hlt a ha b hb => ?_) hids
  rwa [hp.named (dirtied?_eq_some.mp ha).1, hp.named (dirtied?_eq_some.mp hb).1]

/-- What becomes of the pages when those with changes of the transaction are written back. -/
structure Settled (t : TxnId) (ids : List PageId) (p p' : Pool) : Prop where
  persists : p.Persists p'
  framed : p'.buffer.Framed
  journal : p'.journal = (p.fates t ids).2
  written : ∀ page, (page, none) ∈ (p.fates t ids).1 →
    p'.cachedPage? page.id = some (Page.clean page.id page.image) ∧
      p'.disk.block? page.id = some page.image ∧
      page.id.pageNo.toNat < p'.disk.pages page.id.table
  lost : ∀ page e, (page, some e) ∈ (p.fates t ids).1 →
    p'.cachedPage? page.id = none ∧ p'.disk.block? page.id = p.disk.block? page.id
  others : ∀ id, (∀ page ∈ p.dirtied t ids, page.id ≠ id) → p.Spares p' id
  pages_le : ∀ table, p.disk.pages table ≤ p'.disk.pages table
  /-- No file grows, except to reach a page that had been cut off. -/
  pages_eq : (∀ page ∈ p.dirtied t ids, page.id.pageNo.toNat < p.disk.pages page.id.table) →
    ∀ table, p'.disk.pages table = p.disk.pages table

theorem mem_dirtied_of_fates {x : Page × Option Error} (h : x ∈ (p.fates t ids).1) :
    x.1 ∈ p.dirtied t ids := by
  rw [← pages_fates p.disk p.journal (p.dirtied t ids)]
  exact List.mem_map_of_mem h

namespace Settled

/-- Nothing is done if no page has changes of the transaction. -/
theorem idle (hp : p.buffer.Framed) (hnone : p.dirtied t ids = []) : Settled t ids p p := by
  have hfates : p.fates t ids = ([], p.journal) := by rw [fates, hnone]; rfl
  constructor
  case persists => exact .refl p
  case framed => exact hp
  case journal => rw [hfates]
  case written => simp [hfates]
  case lost => simp [hfates]
  case others => exact fun _ _ => ⟨rfl, rfl⟩
  case pages_le => exact fun _ => Nat.le_refl _
  case pages_eq => exact fun _ _ => rfl

theorem id_ne_of_mem (hp : p.buffer.Framed) (hid : id ∉ ids) (hpage : page ∈ p.dirtied t ids) :
    page.id ≠ id := by
  rintro rfl
  exact hid ((mem_dirtied hp).mp hpage).1

theorem dirtied_eq (h : Settled t [id] p p') (hp : p.buffer.Framed) (hid : id ∉ ids) :
    p'.dirtied t ids = p.dirtied t ids := by
  refine List.filterMap_congr fun q hq => ?_
  have hne : ∀ page ∈ p.dirtied t [id], page.id ≠ q := fun page hpage heq => by
    have hmem := ((mem_dirtied hp).mp hpage).1
    rw [heq, List.mem_singleton] at hmem
    exact hid (hmem ▸ hq)
  rw [dirtied?, (h.others q hne).cache, dirtied?]

/-- The rest fare as they would have fared without the first, but for what the log says. -/
theorem fates_cons (h : Settled t [id] p p') (hp : p.buffer.Framed) (hid : id ∉ ids) :
    p.fates t (id :: ids) = ((p.fates t [id]).1 ++ (p'.fates t ids).1, (p'.fates t ids).2) := by
  have hrest : p'.fates t ids = p.disk.fates (p.fates t [id]).2 (p.dirtied t ids) := by
    rw [fates, h.dirtied_eq hp hid, h.persists.fates, h.journal]
  rw [hrest, fates, dirtied_cons, fates_append]
  rfl

/-- One page, and then the rest. -/
theorem cons (h : Settled t [id] p p') (hp : p.buffer.Framed) (hid : id ∉ ids)
    (h' : Settled t ids p' p'') : Settled t (id :: ids) p p'' := by
  have hrest : p'.dirtied t ids = p.dirtied t ids := h.dirtied_eq hp hid
  have hfates := h.fates_cons hp hid
  have hdirtied := p.dirtied_cons t id ids
  -- The first page is left alone afterwards, and the rest have been before.
  have hfirst : ∀ {x}, x ∈ (p.fates t [id]).1 → p'.Spares p'' x.1.id := fun hx => by
    have hmem := ((mem_dirtied hp).mp (mem_dirtied_of_fates hx)).1
    refine h'.others _ fun page hpage => ?_
    rw [List.mem_singleton.mp hmem]
    exact id_ne_of_mem h.framed hid hpage
  have hbefore : ∀ {x}, x ∈ (p'.fates t ids).1 → p.Spares p' x.1.id := fun hx => by
    have hmem := ((mem_dirtied hp).mp (hrest ▸ mem_dirtied_of_fates hx)).1
    refine h.others _ fun page hpage heq => hid ?_
    rw [← List.mem_singleton.mp ((mem_dirtied hp).mp hpage).1, heq]
    exact hmem
  constructor
  case persists => exact h.persists.trans h'.persists
  case framed => exact h'.framed
  case journal => rw [h'.journal, hfates]
  case written =>
    intro page hmem
    rw [hfates] at hmem
    rcases List.mem_append.mp hmem with hmem | hmem
    · obtain ⟨hcached, hblock, hwithin⟩ := h.written page hmem
      exact ⟨(hfirst hmem).cache.trans hcached, (hfirst hmem).disk.trans hblock,
        Nat.lt_of_lt_of_le hwithin (h'.pages_le page.id.table)⟩
    · exact h'.written page hmem
  case lost =>
    intro page e hmem
    rw [hfates] at hmem
    rcases List.mem_append.mp hmem with hmem | hmem
    · obtain ⟨hcached, hblock⟩ := h.lost page e hmem
      exact ⟨(hfirst hmem).cache.trans hcached, (hfirst hmem).disk.trans hblock⟩
    · obtain ⟨hcached, hblock⟩ := h'.lost page e hmem
      exact ⟨hcached, hblock.trans (hbefore hmem).disk⟩
  case others =>
    intro q hq
    rw [hdirtied] at hq
    exact (h.others q fun page hpage => hq page (List.mem_append_left _ hpage)).trans
      (h'.others q fun page hpage => hq page (List.mem_append_right _ (hrest ▸ hpage)))
  case pages_le => exact fun table => Nat.le_trans (h.pages_le table) (h'.pages_le table)
  case pages_eq =>
    intro hwithin table
    have hpages := h.pages_eq fun page hpage =>
      hwithin page (hdirtied ▸ List.mem_append_left _ hpage)
    refine (h'.pages_eq (fun page hpage => ?_) table).trans (hpages table)
    rw [hpages]
    exact hwithin page (hdirtied ▸ List.mem_append_right _ (hrest ▸ hpage))

/-- A page that cannot be written is dropped. -/
theorem single_lost (hp : p.buffer.Framed) (hdirtied : p.dirtied t [id] = [page])
    (hid : page.id = id) (hfailed : (p.disk.fate p.journal page).1 = some e) :
    Settled t [id] p ((p.withJournal (p.disk.fate p.journal page).2).discard id) := by
  have hfates : p.fates t [id] = ([(page, some e)], (p.disk.fate p.journal page).2) := by
    rw [fates, hdirtied, Disk.fates_cons, hfailed]
    rfl
  have hcache := Buffer.cachedPage?_discard p.buffer id
  constructor
  case persists => exact ⟨rfl, fun _ => rfl⟩
  case framed => exact hp.discard id
  case journal => rw [hfates]; rfl
  case written => simp [hfates]
  case lost =>
    intro page' e' hmem
    rw [hfates] at hmem
    obtain ⟨rfl, -⟩ := Prod.mk.inj (List.mem_singleton.mp hmem)
    exact ⟨(hcache _).trans (if_pos hid), rfl⟩
  case others =>
    intro q hq
    rw [hdirtied] at hq
    exact ⟨(hcache q).trans (if_neg fun heq => hq page List.mem_cons_self (hid.trans heq.symm)), rfl⟩
  case pages_le => exact fun _ => Nat.le_refl _
  case pages_eq => exact fun _ _ => rfl

/-- A page that was written is clean, and what was written is its baseline. -/
theorem single_written {f : FrameId} {disk : Disk} (hp : p.buffer.Framed)
    (hf : p.buffer.cached? id = some f) (hdirtied : p.dirtied t [id] = [p.page f])
    (hnone : (p.disk.fate p.journal (p.page f)).1 = none)
    (hdisk : Overwritten p.disk disk (p.page f)) :
    Settled t [id] p (Pool.setPage ⟨p.buffer, disk, (p.disk.fate p.journal (p.page f)).2⟩ f
      (p.page f).rebase.markClean) := by
  have hid : (p.page f).id = id := (hp id f hf).2
  have hfates : p.fates t [id] = ([(p.page f, none)], (p.disk.fate p.journal (p.page f)).2) := by
    rw [fates, hdirtied, Disk.fates_cons, hnone]
    rfl
  have hcache := Buffer.cachedPage?_setPage hp hf (p.page f).rebase.markClean
  constructor
  case persists => exact ⟨hdisk.catalog, hdisk.device⟩
  case framed => exact hp.setPage hf hid
  case journal => rw [hfates]; rfl
  case written =>
    intro page hmem
    rw [hfates] at hmem
    obtain ⟨rfl, -⟩ := Prod.mk.inj (List.mem_singleton.mp hmem)
    exact ⟨(hcache _).trans (if_pos hid), (hdisk.block? _).trans (if_pos rfl), hdisk.within⟩
  case lost => simp [hfates]
  case others =>
    intro q hq
    rw [hdirtied] at hq
    have hne : q ≠ (p.page f).id := fun heq => hq _ List.mem_cons_self heq.symm
    exact ⟨(hcache q).trans (if_neg (hid ▸ hne)), (hdisk.block? q).trans (if_neg hne)⟩
  case pages_le => exact hdisk.pages_le
  case pages_eq => exact fun hwithin => hdisk.pages_eq (hwithin _ (hdirtied ▸ List.mem_cons_self))

end Settled

/-- Settling one page, which is dropped if it fails. -/
theorem settlePage_settled (t : TxnId) (id : PageId) (hp : p.buffer.Framed) :
    (failures (p.fates t [id]).1 = [] ∧ ∃ p', (settlePage t id).on p = (.ok (.ok ()), p') ∧
      Settled t [id] p p') ∨
    ∃ e p', failures (p.fates t [id]).1 = [(id, e)] ∧
      (settlePage t id).on p = (.ok (.error e), p') ∧ Settled t [id] p (p'.discard id) := by
  have hidle : p.dirtied? t id = none →
      failures (p.fates t [id]).1 = [] ∧ Settled t [id] p p := fun hnone => by
    have hdirtied : p.dirtied t [id] = [] := by rw [dirtied_single, hnone, Option.toList_none]
    refine ⟨?_, .idle hp hdirtied⟩
    rw [fates, hdirtied]
    rfl
  simp only [settlePage, Act.on_bind, Act.on_get]
  cases hf : p.buffer.cached? id with
  | none =>
    have hnone : p.dirtied? t id = none := by
      rw [dirtied?, cachedPage?, Buffer.cachedPage?_eq_none.mpr hf, Option.filter_none]
    exact Or.inl ⟨(hidle hnone).1, p, rfl, (hidle hnone).2⟩
  | some f =>
    have hcached : p.cachedPage? id = some (p.page f) := Buffer.cachedPage?_of_cached hf
    have hid : (p.page f).id = id := (hp id f hf).2
    simp only
    split
    case isFalse hdirty =>
      have hnone : p.dirtied? t id = none := by
        rw [dirtied?, hcached, Option.filter_some_neg (by simpa using hdirty)]
      exact Or.inl ⟨(hidle hnone).1, p, rfl, (hidle hnone).2⟩
    case isTrue hdirty =>
      have hdirtied : p.dirtied t [id] = [p.page f] := by
        rw [dirtied_single, dirtied?_eq_some.mpr ⟨hcached, hdirty⟩, Option.toList_some]
      have hfailures : failures (p.fates t [id]).1 =
          ((p.disk.fate p.journal (p.page f)).1.map (Prod.mk id)).toList := by
        rw [fates, hdirtied, Disk.fates_cons]
        cases (p.disk.fate p.journal (p.page f)).1 with
        | none => rfl
        | some e => exact congrArg (fun id => [(id, e)]) hid
      rw [Act.on_bind, hfailures]
      rcases writeBack_fate (p.page f) p with ⟨e, hfailed, hon⟩ | ⟨hnone, disk, hdisk, hon⟩
      · exact Or.inr ⟨e, _, by rw [hfailed]; rfl, by rw [hon], .single_lost hp hdirtied hid hfailed⟩
      · refine Or.inl ⟨by rw [hnone]; rfl, _, ?_, .single_written hp hf hdirtied hnone hdisk⟩
        rw [hon]
        rfl

/-- All pages are attempted, one after the other, and those that fail are listed. -/
theorem on_settle (hp : p.buffer.Framed) (hids : ids.Nodup) :
    ∃ p', (settle t ids).on p = (.ok (.ok (failures (p.fates t ids).1)), p') ∧
      Settled t ids p p' := by
  induction ids generalizing p with
  | nil => exact ⟨p, rfl, .idle hp rfl⟩
  | cons id rest ih =>
    obtain ⟨hid, hrest⟩ := List.nodup_cons.mp hids
    -- What follows is the rest of the pages, from a pool where this one is dealt with.
    have hgo : ∀ p₁, Settled t [id] p p₁ → ∃ p' later,
        (settle t rest).on p₁ = (.ok (.ok later), p') ∧
        failures (p.fates t (id :: rest)).1 = failures (p.fates t [id]).1 ++ later ∧
        Settled t (id :: rest) p p' := by
      intro p₁ hfirst
      obtain ⟨p', hon, hsettled⟩ := ih hfirst.framed hrest
      refine ⟨p', _, hon, ?_, hfirst.cons hp hid hsettled⟩
      rw [hfirst.fates_cons hp hid]
      exact List.filterMap_append
    simp only [settle, Act.on_bind, Act.on_attempt]
    rcases settlePage_settled t id hp with ⟨hnone, p₁, hon, hfirst⟩ | ⟨e, p₁, hfailed, hon, hfirst⟩
    · obtain ⟨p', later, hon', hlist, hsettled⟩ := hgo p₁ hfirst
      refine ⟨p', ?_, hsettled⟩
      rw [hon, hlist, hnone]
      exact hon'
    · obtain ⟨p', later, hon', hlist, hsettled⟩ := hgo (p₁.discard id) hfirst
      refine ⟨p', ?_, hsettled⟩
      rw [hon, hlist, hfailed]
      simp only [Except.map, Act.on_modify, Act.on_bind, hon']
      rfl

/-! ## The result of a commit -/

variable {fates : List (Page × Option Error)}

/-- A commit succeeds if no page has failed, and only then. -/
theorem commitResult_eq_ok :
    commitResult t (failures fates) = .ok () ↔ ∀ x ∈ fates, x.2 = none := by
  have hnone : failures fates = [] ↔ ∀ x ∈ fates, x.2 = none := by
    rw [failures, List.filterMap_eq_nil_iff]
    simp only [Option.map_eq_none_iff]
  rw [← hnone]
  cases failures fates with
  | nil => exact ⟨fun _ => rfl, fun _ => rfl⟩
  | cons failure rest => exact ⟨nofun, nofun⟩

/-- The pages that failed, in the order in which they were attempted. -/
theorem fst_failures (fates : List (Page × Option Error)) :
    (failures fates).map Prod.fst = (fates.filter fun x => x.2.isSome).map fun x => x.1.id := by
  induction fates with
  | nil => rfl
  | cons x rest ih =>
    obtain ⟨page, failure⟩ := x
    rw [failures, List.filterMap_cons, List.filter_cons]
    cases failure with
    | none => exact ih
    | some e => exact congrArg (page.id :: ·) ih

/-- The first failure is told, and all pages that failed. -/
theorem commitResult_of_failed (hfirst : fates.find? (fun x => x.2.isSome) = some (page, some e)) :
    commitResult t (failures fates) = .error (.commitIncomplete t
      ((fates.filter fun x => x.2.isSome).map fun x => x.1.id) e) := by
  rw [← fst_failures]
  induction fates with
  | nil => cases hfirst
  | cons head rest ih =>
    obtain ⟨page', failure⟩ := head
    cases failure with
    | none => exact ih hfirst
    | some e' =>
      obtain ⟨rfl, he⟩ := Prod.mk.inj (Option.some.inj hfirst)
      obtain rfl := Option.some.inj he
      rfl

end Pool

end PagedHeap
