import PagedHeap.Proofs.Pool.Acts
import PagedHeap.Proofs.Pool.Balance
import PagedHeap.Proofs.Pool.Order

/-!
# Two pools side by side

Two pools keep caches of their own of the same files.  They agree on every page that somebody has
dirtied, for no such page leaves a cache to make room, and each of their clean pages is what its
file holds.  So both answer alike, unless one of them finds no room.
-/

namespace PagedHeap

namespace Act

section

variable {σ α β : Type}

/-- Two actions come out alike, or one of them finds no room. -/
inductive Paired (R : σ → σ → Prop) (Q : α → β → σ → σ → Prop) :
    Checked (Except Error α) × σ → Checked (Except Error β) × σ → Prop
  | answered {a : α} {b : β} {s s' : σ} (hstates : R s s') (hanswers : Q a b s s') :
      Paired R Q (.ok (.ok a), s) (.ok (.ok b), s')
  | refused (e : Error) {s s' : σ} (hstates : R s s') :
      Paired R Q (.ok (.error e), s) (.ok (.error e), s')
  | faulted (fault : Fault) {s s' : σ} (hstates : R s s') :
      Paired R Q (.error fault, s) (.error fault, s')
  | fullLeft (capacity : Nat) (s : σ) (y : Checked (Except Error β) × σ) :
      Paired R Q (.ok (.error (.exhausted capacity)), s) y
  | fullRight (capacity : Nat) (x : Checked (Except Error α) × σ) (s' : σ) :
      Paired R Q x (.ok (.error (.exhausted capacity)), s')

/-- Two actions end with the same result. -/
structure Agree (R : σ → σ → Prop) (x y : Checked (Except Error α) × σ) : Prop where
  result : y.1 = x.1
  states : R x.2 y.2

end

variable {σ α β γ δ : Type} {R R' : σ → σ → Prop} {Q : α → β → σ → σ → Prop}
  {Q' : γ → δ → σ → σ → Prop} {s s' : σ}

/-- An action is what it does. -/
theorem ext {act act' : Act σ α} (h : ∀ s, act.on s = act'.on s) : act = act' :=
  funext h

theorem Paired.bind {act : Act σ α} {act' : Act σ β} {f : α → Act σ γ} {g : β → Act σ δ}
    (h : Paired R Q (act.on s) (act'.on s')) (hR : ∀ t t', R t t' → R' t t')
    (hnext : ∀ a b t t', R t t' → Q a b t t' → Paired R' Q' ((f a).on t) ((g b).on t')) :
    Paired R' Q' ((act >>= f).on s) ((act' >>= g).on s') := by
  rw [on_bind, on_bind]
  generalize act.on s = x at h ⊢
  generalize act'.on s' = y at h ⊢
  cases h with
  | answered hstates hanswers => exact hnext _ _ _ _ hstates hanswers
  | refused e hstates => exact .refused e (hR _ _ hstates)
  | faulted fault hstates => exact .faulted fault (hR _ _ hstates)
  | fullLeft capacity s y => exact .fullLeft capacity s _
  | fullRight capacity x s' => exact .fullRight capacity _ s'

theorem Paired.mono {Q' : α → β → σ → σ → Prop} {x : Checked (Except Error α) × σ}
    {y : Checked (Except Error β) × σ} (h : Paired R Q x y) (hR : ∀ t t', R t t' → R' t t')
    (hQ : ∀ a b t t', R t t' → Q a b t t' → Q' a b t t') : Paired R' Q' x y := by
  cases h with
  | answered hstates hanswers => exact .answered (hR _ _ hstates) (hQ _ _ _ _ hstates hanswers)
  | refused e hstates => exact .refused e (hR _ _ hstates)
  | faulted fault hstates => exact .faulted fault (hR _ _ hstates)
  | fullLeft capacity s y => exact .fullLeft capacity s y
  | fullRight capacity x s' => exact .fullRight capacity x s'

/-- What is known of the first action alone. -/
theorem Paired.also {P : α → σ → Prop} {x : Checked (Except Error α) × σ}
    {y : Checked (Except Error β) × σ} (h : Paired R Q x y)
    (hP : ∀ a s, x = (.ok (.ok a), s) → P a s) :
    Paired R (fun a b s s' => Q a b s s' ∧ P a s) x y := by
  cases h with
  | answered hstates hanswers => exact .answered hstates ⟨hanswers, hP _ _ rfl⟩
  | refused e hstates => exact .refused e hstates
  | faulted fault hstates => exact .faulted fault hstates
  | fullLeft capacity s y => exact .fullLeft capacity s y
  | fullRight capacity x s' => exact .fullRight capacity x s'

theorem Agree.paired {x y : Checked (Except Error α) × σ} (h : Agree R x y)
    (hR : ∀ t t', R t t' → R' t t') : Paired R' (fun a b s s' => b = a ∧ R s s') x y := by
  obtain ⟨x, s⟩ := x
  obtain ⟨y, s'⟩ := y
  obtain ⟨rfl, hstates⟩ := h
  rcases y with fault | e | a
  · exact .faulted fault (hR _ _ hstates)
  · exact .refused e (hR _ _ hstates)
  · exact .answered (hR _ _ hstates) ⟨rfl, hstates⟩

theorem Agree.bind {act act' : Act σ α} {f g : α → Act σ γ}
    (h : Agree R (act.on s) (act'.on s')) (hR : ∀ t t', R t t' → R' t t')
    (hnext : ∀ a t t', R t t' → Agree R' ((f a).on t) ((g a).on t')) :
    Agree R' ((act >>= f).on s) ((act' >>= g).on s') := by
  rw [on_bind, on_bind]
  generalize act.on s = x at h ⊢
  generalize act'.on s' = y at h ⊢
  obtain ⟨x, t⟩ := x
  obtain ⟨y, t'⟩ := y
  obtain ⟨rfl, hstates⟩ := h
  rcases y with fault | e | a
  · exact ⟨rfl, hR _ _ hstates⟩
  · exact ⟨rfl, hR _ _ hstates⟩
  · exact hnext a t t' hstates

end Act

/-! ## Copies of a page -/

/-- Copies of a page that tell the same.  The baseline of a clean page tells nothing: it is taken
anew before the page changes. -/
structure Page.Alike (a b : Page) : Prop where
  id : b.id = a.id
  image : b.image = a.image
  dirtier : b.dirtier = a.dirtier
  baseline : a.dirtier ≠ none → b.baseline = a.baseline

namespace Page

variable {a b : Page}

theorem Alike.refl (a : Page) : a.Alike a := ⟨rfl, rfl, rfl, fun _ => rfl⟩

theorem Alike.eq_of_dirty (h : a.Alike b) (hdirty : a.dirtier ≠ none) : b = a := by
  obtain ⟨hid, himage, hdirtier, hbaseline⟩ := h
  cases a
  cases b
  exact (Page.mk.injEq ..).mpr ⟨hid, himage, hdirtier, hbaseline hdirty⟩

theorem alike_of_clean (hid : b.id = a.id) (himage : b.image = a.image) (ha : a.dirtier = none)
    (hb : b.dirtier = none) : a.Alike b :=
  ⟨hid, himage, hb.trans ha.symm, fun hdirty => absurd ha hdirty⟩

/-- Copies that are alike become the same when they are changed. -/
theorem Alike.markDirty (h : a.Alike b) (t : TxnId) : b.markDirty t = a.markDirty t := by
  cases hdirty : a.dirtier with
  | some u => rw [h.eq_of_dirty (by rw [hdirty]; exact nofun)]
  | none =>
    have hb : b.dirtier = none := h.dirtier.trans hdirty
    rw [Page.markDirty, Page.markDirty, isDirty, isDirty, hdirty, hb]
    exact (Page.mk.injEq ..).mpr ⟨h.id, h.image, rfl, h.image⟩

end Page

/-! ## Disks that differ in what was read -/

namespace Disk

variable {a b d : Disk} {s s' : Store} {table : TableId} {id : PageId}

/-- No device fails. -/
def Working (d : Disk) : Prop :=
  ∀ table s, d.store? table = some s → s.faults = {}

theorem working_empty : Working ∅ := by
  intro table s hs
  cases hs

theorem Working.addTable (h : d.Working) (table : TableId) : (d.addTable table).Working := by
  intro u s hs
  rcases store?_of_addTable hs with hs | ⟨rfl, rfl⟩
  · exact h u s hs
  · rfl

theorem Working.put (h : d.Working) (hs : s.faults = {}) : (d.put table s).Working := by
  intro u s' hs'
  rw [store?_put] at hs'
  split at hs'
  · exact Option.some.inj hs' ▸ hs
  · exact h u s' hs'

namespace SameFiles

theorem symm (h : SameFiles a b) : SameFiles b a :=
  ⟨fun table => (h.file table).symm, h.catalog.symm⟩

theorem roomy (h : SameFiles a b) (ha : a.Roomy) : b.Roomy :=
  fun table => h.pages table ▸ ha table

/-- A table is found on both disks, with the same file, or on neither. -/
theorem lookup_cases (h : SameFiles a b) (table : TableId) :
    (∃ s s', a.lookup table = .ok s ∧ b.lookup table = .ok s' ∧ s'.file = s.file) ∨
      ∃ e, a.lookup table = .error e ∧ b.lookup table = .error e := by
  rw [lookup, lookup, h.catalog]
  cases a.catalog.contains table with
  | false => exact Or.inr ⟨_, rfl, rfl⟩
  | true =>
    cases hs : b.store? table with
    | none =>
      rw [h.store_none hs]
      exact Or.inr ⟨_, rfl, rfl⟩
    | some s' =>
      obtain ⟨s, hs', hfile⟩ := h.store hs
      rw [hs']
      exact Or.inl ⟨s, s', rfl, rfl, hfile⟩

/-- Stores that are put in the place of others, with the same file each. -/
theorem put_put (h : SameFiles a b) (hfile : s'.file = s.file) :
    SameFiles (a.put table s) (b.put table s') := by
  refine ⟨fun u => ?_, h.catalog⟩
  rw [store?_put, store?_put]
  split
  · rw [Option.map_some, Option.map_some, hfile]
  · exact h.file u

end SameFiles

/-- Whether a page can be had through the catalog. -/
def reach (d : Disk) (id : PageId) : Except Error Unit := do
  let s ← d.lookup id.table
  s.volume.require id

theorem measure_of_working (hs : s.faults = {}) (pageNo : UInt32) : s.measure pageNo = .ok () := by
  rw [Store.measure, hs]
  rfl

theorem require_of_working (hs : s.faults = {}) (id : PageId) :
    s.require id = s.volume.require id := by
  rw [Store.require, measure_of_working hs]
  cases s.volume.owns id <;> rfl

theorem append_of_working (hs : s.faults = {}) :
    s.append = s.volume.append.map fun appended => (appended.1, { s with volume := appended.2 }) := by
  rw [Store.append, hs]
  cases s.volume.append <;> rfl

theorem Working.count (h : d.Working) (id : PageId) : d.count id = .ok (d.pageCount id.table) := by
  rw [Disk.count]
  cases hs : d.store? id.table with
  | none => rfl
  | some s =>
    simp only [measure_of_working (h id.table s hs)]
    rfl

theorem require_of_file (h : s'.file = s.file) (id : PageId) :
    s'.volume.require id = s.volume.require id := by
  have htable : s'.volume.table = s.volume.table := congrArg Prod.fst h
  have hmedium : s'.volume.medium = s.volume.medium := congrArg (fun f => f.2.1) h
  rw [Volume.require, Volume.require, Volume.contains, Volume.contains, Volume.owns, Volume.owns,
    Volume.pageCount, Volume.pageCount, htable, hmedium]

theorem SameFiles.reach (h : SameFiles a b) (id : PageId) : b.reach id = a.reach id := by
  rcases h.lookup_cases id.table with ⟨s, s', hs, hs', hfile⟩ | ⟨e, he, he'⟩
  · rw [Disk.reach, Disk.reach, hs, hs']
    exact require_of_file hfile id
  · rw [Disk.reach, Disk.reach, he, he']

/-- A page of a table in the catalog can be had if it can be read. -/
theorem reach_of_image? {img : Image} (hcatalog : d.catalog.contains id.table = true)
    (himage : d.image? id = some img) : d.reach id = .ok () := by
  cases hs : d.store? id.table with
  | none =>
    rw [image?, hs] at himage
    cases himage
  | some s =>
    rw [image?, hs, Option.bind_some] at himage
    split at himage
    case isFalse => cases himage
    case isTrue hcontains =>
      rw [reach, lookup, hcatalog, hs]
      exact if_pos hcontains

theorem catalog_of_reach (h : d.reach id = .ok ()) : d.catalog.contains id.table = true := by
  cases hlookup : d.lookup id.table with
  | error e =>
    rw [reach, hlookup] at h
    cases h
  | ok s => exact (store?_of_lookup hlookup).2

end Disk

namespace Pool

open Disk

variable {p p' q q' : Pool} {id : PageId} {f g : FrameId} {t : TxnId} {page new : Page}

/-- Whom a page belongs to is left open: locks may have been let go of early. -/
def anyone (_ : PageId) (_ : TxnId) : Prop := True

/-- A pool whose clean pages are what their files hold, on devices that work. -/
structure Reliable (p : Pool) : Prop where
  coherent : Coherent anyone p
  /-- Every cached page was found through the catalog. -/
  listed : ∀ id page, p.cachedPage? id = some page → p.disk.catalog.contains id.table = true
  working : p.disk.Working

/-- The pools have the same files, the same log and the same dirty pages. -/
structure Matches (p q : Pool) : Prop where
  files : SameFiles p.disk q.disk
  journal : q.journal = p.journal
  dirty : ∀ id page, page.dirtier ≠ none →
    (q.cachedPage? id = some page ↔ p.cachedPage? id = some page)

/-- Two pools that differ in caching only. -/
structure Twins (p q : Pool) : Prop where
  agreeing : p.Matches q
  first : p.Reliable
  second : q.Reliable

/-- What happened to the pool is a matter of caching. -/
structure Kept (p p' : Pool) : Prop where
  agreeing : p.Matches p'
  reliable : p'.Reliable

namespace Matches

theorem symm (h : p.Matches q) : q.Matches p :=
  ⟨h.files.symm, h.journal.symm, fun id page hdirty => (h.dirty id page hdirty).symm⟩

theorem trans {r : Pool} (h : p.Matches q) (h' : q.Matches r) : p.Matches r :=
  ⟨h.files.trans h'.files, h'.journal.trans h.journal,
    fun id page hdirty => (h'.dirty id page hdirty).trans (h.dirty id page hdirty)⟩

end Matches

theorem Twins.symm (h : p.Twins q) : q.Twins p :=
  ⟨h.agreeing.symm, h.second, h.first⟩

/-- Both pools tell how many pages a table has, and tell the same. -/
theorem Twins.count_eq (h : p.Twins q) (id : PageId) : q.disk.count id = p.disk.count id := by
  rw [h.first.working.count, h.second.working.count, h.agreeing.files.pageCount]

theorem Twins.kept (h : p.Twins q) (hp : p.Kept p') (hq : q.Kept q') : p'.Twins q' :=
  ⟨hp.agreeing.symm.trans (h.agreeing.trans hq.agreeing), hp.reliable, hq.reliable⟩

/-- A pool that serves nothing yet has nothing cached. -/
theorem reliable_of_empty (hm : p.disk.Mounted) (hw : p.disk.Working)
    (hcache : ∀ id, p.buffer.cached? id = none) : p.Reliable := by
  have hnone : ∀ id page, p.cachedPage? id ≠ some page := by
    intro id page hcached
    cases (Buffer.cachedPage?_eq_none.mpr (hcache id)).symm.trans hcached
  refine ⟨⟨hm, fun id f hf => ?_, fun id page h => ?_, fun id page t h => ?_,
    fun id page img h => ?_⟩, fun id page h => ?_, hw⟩
  · cases (hcache id).symm.trans hf
  all_goals exact absurd h (hnone id page)

namespace Reliable

/-- A cached page can be had again. -/
theorem image?_of_cached (hp : p.Reliable) (hroom : p.disk.Roomy)
    (hcached : p.cachedPage? id = some page) : ∃ img, p.disk.image? id = some img :=
  (image?_or_full hp.coherent.mounted (hp.coherent.present id page hcached)).resolve_right
    (Nat.not_le.mpr (hroom id.table))

theorem reach_of_cached (hp : p.Reliable) (hroom : p.disk.Roomy)
    (hcached : p.cachedPage? id = some page) : p.disk.reach id = .ok () := by
  obtain ⟨img, himage⟩ := hp.image?_of_cached hroom hcached
  exact reach_of_image? (hp.listed id page hcached) himage

/-- Pages at rest come and go. -/
theorem kept (hp : p.Reliable) (hframed : p'.buffer.Framed) (hdisk : SameFiles p.disk p'.disk)
    (hworking : p'.disk.Working) (hjournal : p'.journal = p.journal)
    (hcache : ∀ q, p'.cachedPage? q = p.cachedPage? q ∨
      p.Rests q ∧ (p'.cachedPage? q = none ∨ p.disk.catalog.contains q.table = true ∧
        ∃ img, p.disk.image? q = some img ∧ p'.cachedPage? q = some (Page.clean q img))) :
    p.Kept p' := by
  have hchange : Change False anyone ⟨0⟩ p p' [] := .shuffle hdisk fun q =>
    (hcache q).imp_right fun h => ⟨h.1, h.2.imp_right And.right⟩
  refine ⟨⟨hdisk, hjournal, fun q page hdirty => ?_⟩, hchange.coherent hp.coherent hframed,
    fun q page hcached => ?_, hworking⟩
  · rcases hcache q with hsame | ⟨hrests, hgone⟩
    · rw [hsame]
    · refine iff_of_false (fun hcached => ?_) fun hcached => hdirty (hrests page hcached)
      rcases hgone with hnone | ⟨-, img, -, hnew⟩
      · cases hnone.symm.trans hcached
      · obtain rfl := Option.some.inj (hnew.symm.trans hcached)
        exact hdirty rfl
  · rw [hdisk.catalog]
    rcases hcache q with hsame | ⟨-, hnone | ⟨hcatalog, -⟩⟩
    · exact hp.listed q page (hsame.symm.trans hcached)
    · cases hnone.symm.trans hcached
    · exact hcatalog

/-- Nothing has changed in what the cache shows. -/
theorem kept_withBuffer (hp : p.Reliable) {b : Buffer} (hframes : b.frames = p.buffer.frames)
    (hcache : b.cache = p.buffer.cache) : p.Kept (p.withBuffer b) :=
  hp.kept (hp.coherent.framed.congr hframes hcache) (SameFiles.refl _) hp.working rfl
    fun q => Or.inl (Buffer.cachedPage?_congr hframes hcache q)

end Reliable

/-! ## Fetching -/

/-- Reading succeeds if the page can be had. -/
theorem readPage_reaches (hw : p.disk.Working) (id : PageId) :
    (∃ e, p.disk.reach id = .error e ∧ (readPage id).on p = (.ok (.error e), p)) ∨
      p.disk.reach id = .ok () ∧ ∃ page disk,
        (readPage id).on p = (.ok (.ok page), p.withDisk disk) ∧ disk.Working := by
  rw [on_readPage, reach]
  cases hlookup : p.disk.lookup id.table with
  | error e => exact Or.inl ⟨e, rfl, rfl⟩
  | ok s =>
    have hworking := hw id.table s (store?_of_lookup hlookup).1
    have hread : s.read id = (s.volume.require id).map fun _ =>
        (Page.clean id (s.volume.image id.pageNo),
          { s with volume := { s.volume with reads := s.volume.reads + 1 } }) := by
      rw [Store.read, require_of_working hworking, hworking, Volume.read]
      cases s.volume.require id <;> rfl
    have hbind : (do let s ← (.ok s : Except Error Store); s.volume.require id) =
        s.volume.require id := rfl
    simp only [hbind, hread]
    cases s.volume.require id with
    | error e => exact Or.inl ⟨e, rfl, rfl⟩
    | ok u => exact Or.inr ⟨rfl, _, _, rfl, hw.put hworking⟩

theorem exhausted_of_add {b : Buffer} {e : Error} (h : b.add id f = .error e) :
    e = .exhausted b.capacity := by
  rw [Buffer.add] at h
  split at h
  case isFalse => cases h
  case isTrue =>
    split at h
    · cases h
    · exact (Except.error.inj h).symm

/-- A fetch is refused if the page cannot be had, or finds no room; else it is a matter of
caching. -/
theorem fetch_reaches (hp : p.Reliable) (hroom : p.disk.Roomy) (id : PageId) :
    (∃ e, p.disk.reach id = .error e ∧ (fetch id).on p = (.ok (.error e), p)) ∨
      p.disk.reach id = .ok () ∧
        ((∃ capacity p', (fetch id).on p = (.ok (.error (.exhausted capacity)), p')) ∨
          ∃ f p', (fetch id).on p = (.ok (.ok f), p') ∧ p.Kept p' ∧
            p'.buffer.cached? id = some f) := by
  have hframed := hp.coherent.framed
  have hfetched := fetched id p
  have hcached := @cached?_of_fetch p id
  generalize (fetch id).on p = x at hfetched hcached ⊢
  cases hfetched with
  | hit f hf =>
    -- A cached page could be read again, so its being cached does not decide whether it is refused.
    refine Or.inr ⟨hp.reach_of_cached hroom (Buffer.cachedPage?_of_cached hf), Or.inr ?_⟩
    exact ⟨f, _, rfl, hp.kept_withBuffer rfl rfl, hcached hframed rfl⟩
  | unread e hnone hread =>
    rcases readPage_reaches hp.working id with ⟨e', hreach, hread'⟩ | ⟨-, page, disk, hread', -⟩
    · obtain rfl := Except.error.inj (Except.ok.inj (Prod.mk.inj (hread.symm.trans hread')).1)
      exact Or.inl ⟨e, hreach, rfl⟩
    · cases hread.symm.trans hread'
  | noRoom page disk e hnone hread hdisk hadd =>
    rcases readPage_reaches hp.working id with ⟨e', -, hread'⟩ | ⟨hreach, -⟩
    · cases hread.symm.trans hread'
    · obtain rfl := exhausted_of_add hadd
      exact Or.inr ⟨hreach, Or.inl ⟨_, _, rfl⟩⟩
  | miss page disk b hnone hread hdisk himage hclean hadd =>
    rcases readPage_reaches hp.working id with ⟨e', -, hread'⟩ | ⟨hreach, page', disk', hread', hw⟩
    · cases hread.symm.trans hread'
    refine Or.inr ⟨hreach, Or.inr ⟨_, _, rfl, ?_, hcached hframed rfl⟩⟩
    have hsame : disk' = disk := congrArg Pool.disk (Prod.mk.inj (hread'.symm.trans hread)).2
    have hpage : (p.buffer.load page).2.page (p.buffer.load page).1 = page := by
      rw [Buffer.page_load]
      exact if_pos rfl
    have hid : ((p.buffer.load page).2.page (p.buffer.load page).1).id = id := by
      rw [hpage, hclean]
      rfl
    have hadded := (Buffer.added_of_add (hframed.load page) (by simp [Buffer.load]) hid hadd).1
    have hshown : ∀ q, ((p.withDisk disk).withBuffer b).cachedPage? q = b.cachedPage? q :=
      fun _ => rfl
    -- The new page is as its file has it, and whichever page made room was clean.
    refine hp.kept hadded.framed hdisk (hsame ▸ hw) rfl fun q => ?_
    by_cases hq : q = id
    · subst hq
      have hnone' : p.cachedPage? q = none := Buffer.cachedPage?_eq_none.mpr hnone
      refine Or.inr ⟨fun page' hpage' => ?_, Or.inr ⟨catalog_of_reach hreach, _, himage, ?_⟩⟩
      · cases hnone'.symm.trans hpage'
      · rw [hshown, hadded.cached, hpage]
        exact congrArg some hclean
    · have hold : (p.buffer.load page).2.cachedPage? q = p.cachedPage? q :=
        Buffer.cachedPage?_load hframed page q
      rcases hadded.others q hq with hsame' | ⟨hgone, old, hold', hclean'⟩
      · exact Or.inl (hsame'.trans hold)
      · refine Or.inr ⟨fun page' hpage' => ?_, Or.inl hgone⟩
        exact Option.some.inj ((hold.symm.trans hold').symm.trans hpage') ▸ hclean'

/-- The pools have a page in these frames. -/
structure Showing (id : PageId) (f g : FrameId) (p q : Pool) : Prop where
  twins : p.Twins q
  left : p.buffer.cached? id = some f
  right : q.buffer.cached? id = some g
  alike : (p.page f).Alike (q.page g)

/-- Copies of one page in two pools tell the same. -/
theorem Twins.showing (h : p.Twins q) (hroom : p.disk.Roomy) (hf : p.buffer.cached? id = some f)
    (hg : q.buffer.cached? id = some g) : Showing id f g p q := by
  refine ⟨h, hf, hg, ?_⟩
  have hp : p.cachedPage? id = some (p.page f) := Buffer.cachedPage?_of_cached hf
  have hq : q.cachedPage? id = some (q.page g) := Buffer.cachedPage?_of_cached hg
  have hid : (q.page g).id = (p.page f).id :=
    (h.second.coherent.framed id g hg).2.trans (h.first.coherent.framed id f hf).2.symm
  -- A dirty copy is the same in both pools, and two clean ones are what the file holds.
  cases hdirty : (p.page f).dirtier with
  | some t =>
    have hsame := (h.agreeing.dirty id (p.page f) (by rw [hdirty]; exact nofun)).mpr hp
    rw [← Option.some.inj (hsame.symm.trans hq)]
    exact .refl _
  | none =>
    have hclean : (q.page g).dirtier = none := by
      by_contra hne
      have hsame := (h.agreeing.dirty id (q.page g) hne).mp hq
      rw [← Option.some.inj (hp.symm.trans hsame)] at hne
      exact hne hdirty
    obtain ⟨img, himage⟩ := h.first.image?_of_cached hroom hp
    have himage' := (h.agreeing.files.image? h.first.coherent.mounted id).trans himage
    refine Page.alike_of_clean hid ?_ hdirty hclean
    rw [h.first.coherent.faithful id _ img hp hdirty himage,
      h.second.coherent.faithful id _ img hq hclean himage']

/-- A page that nobody has dirtied shows what its file holds. -/
theorem Reliable.content?_of_rests (hp : p.Reliable) (hroom : p.disk.Roomy) (hrests : p.Rests id) :
    p.content? id = p.disk.image? id := by
  cases hcached : p.cachedPage? id with
  | none => exact content?_of_not_cached hcached
  | some page =>
    obtain ⟨img, himage⟩ := hp.image?_of_cached hroom hcached
    rw [content?_of_cached hcached, himage,
      hp.coherent.faithful id page img hcached (hrests page hcached) himage]

/-- Both pools show the same of every page. -/
theorem Twins.content? (h : p.Twins q) (hroom : p.disk.Roomy) (id : PageId) :
    q.content? id = p.content? id := by
  by_cases hdirty : ∃ page, p.cachedPage? id = some page ∧ page.dirtier ≠ none
  case pos =>
    obtain ⟨page, hcached, hdirty⟩ := hdirty
    rw [content?_of_cached hcached,
      content?_of_cached ((h.agreeing.dirty id page hdirty).mpr hcached)]
  case neg =>
    have hrests : p.Rests id := fun page hcached =>
      Classical.not_not.mp fun hne => hdirty ⟨page, hcached, hne⟩
    have hrests' : q.Rests id := fun page hcached =>
      Classical.not_not.mp fun hne =>
        hdirty ⟨page, (h.agreeing.dirty id page hne).mp hcached, hne⟩
    rw [h.first.content?_of_rests hroom hrests,
      h.second.content?_of_rests (h.agreeing.files.roomy hroom) hrests',
      h.agreeing.files.image? h.first.coherent.mounted]

theorem paired_fetch (h : p.Twins q) (hroom : p.disk.Roomy) (id : PageId) :
    Act.Paired Twins (fun f g p' q' => Showing id f g p' q' ∧ p.Kept p') ((fetch id).on p)
      ((fetch id).on q) := by
  have hreach := h.agreeing.files.reach id
  rcases fetch_reaches h.first hroom id with ⟨e, he, hon⟩ | ⟨hok, hp⟩
  · rcases fetch_reaches h.second (h.agreeing.files.roomy hroom) id with ⟨e', he', hon'⟩ | ⟨hok', -⟩
    · obtain rfl := Except.error.inj (he'.symm.trans (hreach.trans he))
      rw [hon, hon']
      exact .refused _ h
    · cases hok'.symm.trans (hreach.trans he)
  · rcases fetch_reaches h.second (h.agreeing.files.roomy hroom) id with ⟨e', he', -⟩ | ⟨-, hq⟩
    · cases he'.symm.trans (hreach.trans hok)
    rcases hp with ⟨capacity, p', hon⟩ | ⟨f, p', hon, hkept, hf⟩
    · rw [hon]
      exact .fullLeft _ _ _
    rcases hq with ⟨capacity, q', hon'⟩ | ⟨g, q', hon', hkept', hg⟩
    · rw [hon']
      exact .fullRight _ _ _
    have htwins := h.kept hkept hkept'
    rw [hon, hon']
    exact .answered htwins ⟨htwins.showing (hkept.agreeing.files.roomy hroom) hf hg, hkept⟩

/-! ## Changing rows -/

theorem Reliable.setDirty (hp : p.Reliable) (hf : p.buffer.cached? id = some f) (hid : new.id = id)
    (hdirty : new.dirtier ≠ none) : (p.setPage f new).Reliable := by
  have hset : ∀ q, (p.setPage f new).cachedPage? q =
      if q = id then some new else p.cachedPage? q :=
    Buffer.cachedPage?_setPage hp.coherent.framed hf new
  have hold : ∀ q page, (p.setPage f new).cachedPage? q = some page →
      (∃ old, p.cachedPage? q = some old) ∧ (page = new ∨ p.cachedPage? q = some page) := by
    intro q page hcached
    rw [hset] at hcached
    split at hcached
    case isTrue heq =>
      exact ⟨⟨_, heq ▸ Buffer.cachedPage?_of_cached hf⟩, Or.inl (Option.some.inj hcached).symm⟩
    case isFalse => exact ⟨⟨page, hcached⟩, Or.inr hcached⟩
  refine ⟨⟨hp.coherent.mounted, hp.coherent.framed.setPage hf hid, fun q page hcached => ?_,
    fun _ _ _ _ _ => trivial, fun q page img hcached hclean => ?_⟩, fun q page hcached => ?_,
    hp.working⟩
  · obtain ⟨⟨old, hcached'⟩, -⟩ := hold q page hcached
    exact hp.coherent.present q old hcached'
  · rcases (hold q page hcached).2 with rfl | hcached'
    · exact absurd hclean hdirty
    · exact hp.coherent.faithful q page img hcached' hclean
  · obtain ⟨⟨old, hcached'⟩, -⟩ := hold q page hcached
    exact hp.listed q old hcached'

/-- A page that is changed becomes the same in both pools. -/
theorem Showing.setDirty (h : Showing id f g p q) (hid : new.id = id)
    (hdirty : new.dirtier ≠ none) : Showing id f g (p.setPage f new) (q.setPage g new) := by
  obtain ⟨⟨hmatches, hp, hq⟩, hf, hg, -⟩ := h
  have hset : ∀ r, (p.setPage f new).cachedPage? r = if r = id then some new else p.cachedPage? r :=
    Buffer.cachedPage?_setPage hp.coherent.framed hf new
  have hset' : ∀ r, (q.setPage g new).cachedPage? r =
      if r = id then some new else q.cachedPage? r :=
    Buffer.cachedPage?_setPage hq.coherent.framed hg new
  refine ⟨⟨⟨hmatches.files, hmatches.journal, fun r page hne => ?_⟩, hp.setDirty hf hid hdirty,
    hq.setDirty hg hid hdirty⟩, hf, hg, ?_⟩
  · rw [hset, hset']
    split
    · exact Iff.rfl
    · exact hmatches.dirty r page hne
  · rw [page_setPage hp.coherent.framed hf, page_setPage hq.coherent.framed hg]
    exact .refl _

/-- Changes of who refers to which frame. -/
theorem Showing.withBuffers (h : Showing id f g p q) (b b' : Buffer)
    (hframes : b.frames = p.buffer.frames) (hcache : b.cache = p.buffer.cache)
    (hframes' : b'.frames = q.buffer.frames) (hcache' : b'.cache = q.buffer.cache) :
    Showing id f g (p.withBuffer b) (q.withBuffer b') := by
  refine ⟨h.twins.kept (h.twins.first.kept_withBuffer hframes hcache)
    (h.twins.second.kept_withBuffer hframes' hcache'), ?_, ?_, ?_⟩
  · exact (congrArg (SortedMap.get? · id) hcache).trans h.left
  · exact (congrArg (SortedMap.get? · id) hcache').trans h.right
  · have hpage : (p.withBuffer b).page f = p.page f :=
      congrArg (fun frames : Array Page => frames.getD f.number _) hframes
    have hpage' : (q.withBuffer b').page g = q.page g :=
      congrArg (fun frames : Array Page => frames.getD g.number _) hframes'
    rw [hpage, hpage']
    exact h.alike

theorem Showing.id_eq (h : Showing id f g p q) : (p.page f).id = id :=
  (h.twins.first.coherent.framed id f h.left).2

/-- A row is placed in both pools, or in neither. -/
theorem agree_placeRow (h : Showing id f g p q) (t : TxnId) (row : Row) :
    Act.Agree (Showing id f g) ((placeRow f t row).on p) ((placeRow g t row).on q) := by
  have hroom : (q.page g).hasRoom row.length = (p.page f).hasRoom row.length := by
    rw [Page.hasRoom, Page.hasRoom, h.alike.image]
  rw [on_placeRow, on_placeRow, hroom, setPage_self, setPage_self]
  cases (p.page f).hasRoom row.length with
  | error fault => exact ⟨rfl, h⟩
  | ok room =>
    cases room with
    | false => exact ⟨rfl, h⟩
    | true =>
      rw [h.alike.image, h.alike.id, h.alike.markDirty]
      have hid : ((p.page f).markDirty t).id = id := (id_markDirty _ _).trans h.id_eq
      exact ⟨rfl, h.setDirty hid nofun⟩

/-- A page that does not take a short row is not blank. -/
theorem ne_blank_of_placeRow {row : Row} (hshort : row.length ≤ maxRowSize)
    (hon : (placeRow f t row).on p = (.ok (.ok none), p')) : (p.page f).image ≠ Image.blank := by
  intro hblank
  have hempty : (p.page f).hasRoom row.length = .ok true := by
    rw [Page.hasRoom, hblank]
    exact Image.hasRoom_blank hshort
  rw [on_placeRow, hempty] at hon
  simp only at hon
  generalize (Image.insert row).on (p.page f).image = x at hon
  rcases x with ⟨fault | e | slot, img⟩
  · cases hon
  · cases hon
  · cases hon

theorem agree_removeRow (h : Showing id f g p q) (t : TxnId) (slot : SlotId) :
    Act.Agree (Showing id f g) ((removeRow f t slot).on p) ((removeRow g t slot).on q) := by
  have hrow : (q.page g).row slot = (p.page f).row slot := by
    rw [Page.row, Page.row, h.alike.image]
  rw [on_removeRow, on_removeRow, hrow, setPage_self, setPage_self]
  rcases (p.page f).row slot with fault | e | old
  · exact ⟨rfl, h⟩
  · exact ⟨rfl, h⟩
  · rw [h.alike.image, h.alike.markDirty]
    have hid : ((p.page f).markDirty t).id = id := (id_markDirty _ _).trans h.id_eq
    exact ⟨rfl, h.setDirty hid nofun⟩

/-- Entering a frame that is the cached one already. -/
theorem Reliable.kept_enter (hp : p.Reliable) (hf : p.buffer.cached? id = some f) :
    p.Kept (p.withBuffer (p.buffer.enter id f)) := by
  obtain ⟨hlt, hid⟩ := hp.coherent.framed id f hf
  refine hp.kept (hp.coherent.framed.enter hlt hid) (SameFiles.refl _) hp.working rfl fun q =>
    Or.inl ?_
  refine (p.buffer.cachedPage?_enter id f q).trans ?_
  split
  case isTrue heq => exact (heq ▸ Buffer.cachedPage?_of_cached hf).symm
  case isFalse => rfl

theorem on_track (hp : p.buffer.Framed) (hf : p.buffer.cached? id = some f) (t : TxnId) :
    (track f t).on p = (.ok (.ok ()), (p.setPage f ((p.page f).markDirty t)).withBuffer
      ((p.setPage f ((p.page f).markDirty t)).buffer.enter id f)) := by
  have hid : (p.page f).id = id := (hp id f hf).2
  have htracked := tracked f t p
  generalize (track f t).on p = x at htracked ⊢
  cases htracked with
  | again _ =>
    rw [hid]
    rfl
  | back b hnone _ =>
    rw [hid, Buffer.isCached_iff.mpr ⟨f, hf⟩] at hnone
    cases hnone
  | noRoom e hnone _ =>
    rw [hid, Buffer.isCached_iff.mpr ⟨f, hf⟩] at hnone
    cases hnone

theorem agree_track (h : Showing id f g p q) (t : TxnId) :
    Act.Agree Twins ((track f t).on p) ((track g t).on q) := by
  rw [on_track h.twins.first.coherent.framed h.left,
    on_track h.twins.second.coherent.framed h.right, h.alike.markDirty]
  have hmarked : Showing id f g (p.setPage f ((p.page f).markDirty t))
      (q.setPage g ((p.page f).markDirty t)) := by
    refine h.setDirty ((id_markDirty _ _).trans h.id_eq) ?_
    exact fun hnone => by cases hnone
  exact ⟨rfl, hmarked.twins.kept (hmarked.twins.first.kept_enter hmarked.left)
    (hmarked.twins.second.kept_enter hmarked.right)⟩

/-! ## Growing and dropping -/

/-- Appending keeps a pool reliable. -/
theorem Reliable.append (hp : p.Reliable) {table : TableId}
    (h : (appendPage table).on p = (.ok (.ok id), p')) (hworking : p'.disk.Working) :
    p'.Reliable := by
  rcases appendPage_cases hp.coherent.mounted table with
    ⟨id', p'', hon, -, hbuffer, hgrown, hsteady, -⟩ | ⟨e, hon⟩
  case inr => cases h.symm.trans hon
  obtain ⟨-, rfl⟩ := Prod.mk.inj (h.symm.trans hon)
  have hmove : Move False anyone ⟨0⟩ p p' [] :=
    move_of_grown hp.coherent.framed hbuffer hgrown hsteady
  refine ⟨hmove.change.coherent hp.coherent hmove.framed, fun q page hcached => ?_, hworking⟩
  rw [cachedPage?, hbuffer] at hcached
  rw [hgrown.catalog]
  exact hp.listed q page hcached

theorem agree_appendPage (h : p.Twins q) (table : TableId) :
    Act.Agree Twins ((appendPage table).on p) ((appendPage table).on q) := by
  have hon := on_appendPage table p
  have hon' := on_appendPage table q
  cases hs : p.disk.store? table with
  | none =>
    rw [h.agreeing.files.symm.store_none hs] at hon'
    rw [hs] at hon
    rw [hon, hon']
    exact ⟨rfl, h⟩
  | some s =>
    obtain ⟨s', hs', hfile⟩ := h.agreeing.files.symm.store hs
    have htable : s'.volume.table = s.volume.table := (congrArg Prod.fst hfile).symm
    have hmedium : s'.volume.medium = s.volume.medium := (congrArg (fun f => f.2.1) hfile).symm
    have hdetours : s'.detours = s.detours := (congrArg (fun f => f.2.2) hfile).symm
    have hcount : s'.volume.pageCount = s.volume.pageCount := by
      rw [Volume.pageCount, hmedium, Volume.pageCount]
    have hworking := h.first.working table s hs
    have hworking' := h.second.working table s' hs'
    obtain ⟨v, happend, hvtable, hvmedium⟩ := append_eq s.volume
    obtain ⟨v', happend', hvtable', hvmedium'⟩ := append_eq s'.volume
    simp only [hs, append_of_working hworking, happend, Except.map] at hon
    simp only [hs', append_of_working hworking', happend', Except.map] at hon'
    have hfile' : Store.file { s' with volume := v' } = Store.file { s with volume := v } := by
      rw [Store.file, Store.file]
      refine Prod.ext ?_ (Prod.ext ?_ hdetours)
      · exact hvtable'.trans (htable.trans hvtable.symm)
      · rw [hvmedium', hvmedium, hmedium, hcount]
    have hp := h.first.append hon (h.first.working.put hworking)
    have hq := h.second.append hon' (h.second.working.put hworking')
    rw [hon, hon', htable, hcount]
    exact ⟨rfl, ⟨h.agreeing.files.put_put hfile', h.agreeing.journal, h.agreeing.dirty⟩, hp, hq⟩

theorem Reliable.discard (hp : p.Reliable) (id : PageId) : (p.discard id).Reliable :=
  ⟨hp.coherent.discard id, fun q page hcached => hp.listed q page (cachedPage?_of_discard hcached),
    hp.working⟩

theorem Twins.discard (h : p.Twins q) (id : PageId) : (p.discard id).Twins (q.discard id) := by
  refine ⟨⟨h.agreeing.files, h.agreeing.journal, fun r page hdirty => ?_⟩, h.first.discard id,
    h.second.discard id⟩
  rw [cachedPage?_discard, cachedPage?_discard]
  split
  · exact Iff.rfl
  · exact h.agreeing.dirty r page hdirty

end Pool

end PagedHeap
