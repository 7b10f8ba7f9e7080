import PagedHeap.Proofs.Database.Committing
import PagedHeap.Proofs.Pool.Discipline

/-!
# The discipline of the cache

After any run the cache holds no more pages than it may, in the order of their last uses, and gives
up the first one that is clean and that nobody refers to.  All other pages stay until they are
discarded, or their transaction ends.
-/

namespace PagedHeap

open Database

variable {wild : Prop} {keep : Option HandleId} {capacity : Nat} {d d' : Database} {c : Call}
  {id : PageId} {f : FrameId} {t : TxnId} {m m' : Moment} {o : Occurrence}
  {outcome : Option Outcome} {occurrences : List Occurrence} {used : List PageId}

/-! ## Turns of fetches -/

/-- How a fetch comes out.  Unless it is answered it changes nothing in the buffer. -/
inductive Pool.HandsOut (id : PageId) (keep : Option HandleId) (p : Pool) :
    Option Outcome → Pool → Prop
  | asleep : HandsOut id keep p none p
  | refused (e : Error) {p' : Pool} (hbuffer : p'.buffer = p.buffer)
      (hfiles : Disk.SameFiles p.disk p'.disk) (hjournal : p'.journal = p.journal) :
      HandsOut id keep p (some (.ok (.error e))) p'
  /-- The page has been used, and the handle refers to its frame from now on. -/
  | answered {f : FrameId} {p' : Pool} (hcached : p'.buffer.cached? id = some f)
      (huses : p.buffer.Uses id p'.buffer)
      (hkept : ∀ h, keep = some h → p'.buffer.holders.get? (.handle h) = some f) :
      HandsOut id keep p (some (.ok (.ok (.fetched (p'.page f))))) p'

/-- The step is the turn of a call that fetches the page. -/
inductive Moment.Fetches (m : Moment) (id : PageId) (keep : Option HandleId)
    (outcome : Option Outcome) : Occurrence → Prop
  | atOnce (t : TxnId) (mode : LockMode) :
      m.Fetches id keep outcome (.command (.fetch t id mode keep) (answerOf outcome))
  | later {t : TxnId} {c : Call} (hcall : m.db.calls.get? t = some c) (hpage : c.page = id)
      (herrand : c.errand = .fetch keep) : m.Fetches id keep outcome (.resumed t outcome)

theorem Buffer.letGo_idle {b : Buffer} {who : Holder} (hnone : b.holders.get? who = none) :
    b.letGo who = b := by
  have hsame : b.holders.erase who = b.holders := by
    apply SortedMap.ext_get?
    intro who'
    rw [SortedMap.get?_erase]
    split
    case isTrue heq => rw [← heq, hnone]
    case isFalse => rfl
  rw [Buffer.letGo, hsame]

theorem run_handsOut (herrand : c.errand = .fetch keep) (hp : d.pool.Filled wild capacity)
    (hhand : d.inHand? c.txn = none) :
    d.pool.HandsOut c.page keep (run c d).1 (run c d).2.pool := by
  have hfail : ∀ (d : Database) (e : Error),
      d.fail c e = (.error e, d.letGo (.operation c.txn)) := by
    intro d e
    rw [Database.fail, herrand]
  have hbound : d.patience c = d.patience c - 1 + 1 := by
    rw [patience]
    omega
  have hproceed : proceed c = fetchHere c keep := by rw [proceed, herrand]
  have hletGo : ∀ p : Pool, p.buffer = d.pool.buffer →
      (p.buffer.letGo (.operation c.txn)) = d.pool.buffer := by
    intro p hbuffer
    rw [hbuffer]
    exact Buffer.letGo_idle hhand
  rw [run, hbound, runBounded]
  generalize d.locks.request c.request = y
  obtain ⟨verdict, locks⟩ := y
  cases verdict with
  | asleep => exact .asleep
  | deadlock =>
    simp only [hfail]
    exact .refused _ (hletGo d.pool rfl) (.refl _) rfl
  | granted =>
    simp only [hproceed, on_fetchHere]
    have hfetched := Pool.fetched c.page d.pool
    have hframe := fun f p (hon : (Pool.fetch c.page).on d.pool = (.ok (.ok f), p)) =>
      Pool.cached?_of_fetch hp.housed.framed hon
    have huses : ∀ f p, (Pool.fetch c.page).on d.pool = (.ok (.ok f), p) →
        d.pool.buffer.Uses c.page p.buffer := fun f p hon =>
      have hdoes : Pool.Does wild (fun _ _ => False) d.pool (.used c.page) p := .fetch hon
      (hdoes.minds hp).2.after
    generalize (Pool.fetch c.page).on d.pool = x at hfetched hframe huses ⊢
    rcases x with ⟨fault | e | f, p⟩
    · cases hfetched
    · simp only [hfail]
      cases hfetched with
      | unread _ _ _ => exact .refused e (hletGo d.pool rfl) (.refl _) rfl
      | noRoom page disk _ _ _ hdisk _ =>
        exact .refused e (hletGo (d.pool.withDisk disk) rfl) hdisk rfl
    · cases keep with
      | none => exact .answered (hframe f p rfl) (huses f p rfl) fun h heq => by cases heq
      | some handle =>
        have hheld : (p.buffer.hold (.handle handle) f).holders.get? (.handle handle) = some f :=
          SortedMap.get?_insert_self p.buffer.holders (.handle handle) f
        have hanswered : d.pool.HandsOut c.page (some handle) _
            (p.withBuffer (p.buffer.hold (.handle handle) f)) :=
          .answered (hframe f p rfl) ((huses f p rfl).of_order_eq rfl) fun h heq =>
            Option.some.inj heq ▸ hheld
        exact hanswered

theorem Step.handsOut (h : Step m o m') (hm : m.Stable wild) (hp : m.db.pool.Filled wild capacity)
    (hfetches : m.Fetches id keep outcome o) : m.db.pool.HandsOut id keep outcome m'.db.pool := by
  cases hfetches with
  | atOnce t mode =>
    generalize ho : Occurrence.command (.fetch t id mode keep) (answerOf outcome) = o at h
    cases h with
    | busy c _ => exact absurd (Occurrence.command.inj ho).2 (answerOf_ne_busy outcome)
    | plain c hfree _ =>
      obtain ⟨rfl, hanswer⟩ := Occurrence.command.inj ho
      have hnone := hm.call_eq_none (LockTable.isAsleep_eq_false.mp hfree)
      have hturn := run_handsOut (c := ⟨t, id, mode, .fetch keep⟩) rfl hp (hm.idle t hnone)
      obtain ⟨hcall, hdb⟩ := answer_call m.db (return .wants ⟨t, id, mode, .fetch keep⟩)
      obtain rfl := answerOf_injective (hanswer.trans hcall)
      have hpool := congrArg Database.pool hdb
      exact hpool ▸ hturn
    | _ => cases ho
  | @later t c hcall hpage herrand =>
    generalize ho : Occurrence.resumed t outcome = o at h
    cases h with
    | resume r _ =>
      obtain ⟨rfl, rfl⟩ := Occurrence.resumed.inj ho
      have hc := hm.calls r.txn c hcall
      have hhand : m.db.inHand? c.txn = none := by
        rw [hc.txn, hc.inHand trivial, Call.inHand?, herrand]
      have hturn :=
        run_handsOut (d := { m.db with calls := m.db.calls.erase r.txn }) herrand hp hhand
      simp only [resumeOne, hcall]
      exact hpage ▸ hturn
    | _ => cases ho

/-- Only fetches keep pages under handles. -/
theorem Step.fetches_of_keeps? (h : Step m o m') (hused : m.uses o ≠ []) {handle : HandleId}
    (hkeeps : m.keeps? o = some handle) : ∃ id outcome, m.Fetches id (some handle) outcome o := by
  cases o with
  | command c answer =>
    cases c with
    | fetch t page mode keep =>
      obtain rfl : keep = some handle := hkeeps
      generalize ho : Occurrence.command (.fetch t page mode (some handle)) answer = o at h
      cases h with
      | busy c hbusy =>
        obtain ⟨rfl, rfl⟩ := Occurrence.command.inj ho
        exact absurd (if_pos hbusy) hused
      | plain c _ _ =>
        obtain ⟨rfl, rfl⟩ := Occurrence.command.inj ho
        have hanswer : (m.db.carryOut (.fetch t page mode (some handle))).1.answer = _ :=
          (answer_call m.db (return .wants ⟨t, page, mode, .fetch (some handle)⟩)).1
        rw [← ho, hanswer]
        exact ⟨page, _, .atOnce t mode⟩
      | _ => cases ho
    | _ => cases hkeeps
  | resumed t outcome =>
    obtain ⟨c, hcall, hkeep⟩ := Option.bind_eq_some_iff.mp hkeeps
    refine ⟨c.page, outcome, .later hcall rfl ?_⟩
    rw [Call.keeps?] at hkeep
    split at hkeep
    case h_1 keep herrand => rw [herrand, hkeep]
    case h_2 => cases hkeep

/-! ## Pages that stay -/

/-- Whoever has a frame in hand is in the middle of a call. -/
theorem Moment.Stable.isEvictable_iff (hm : m.Stable wild) :
    m.db.pool.buffer.isEvictable id = true ↔ ∃ f, m.db.pool.buffer.cached? id = some f ∧
      (m.db.pool.page f).dirtier = none ∧ (∀ h, m.db.kept? h ≠ some f) ∧
        ∀ t c, m.db.calls.get? t = some c → c.inHand? ≠ some f := by
  have hhands : ∀ f, (∀ t, m.db.inHand? t ≠ some f) ↔
      ∀ t c, m.db.calls.get? t = some c → c.inHand? ≠ some f := by
    intro f
    constructor
    · intro hnone t c hcall
      exact (hm.calls t c hcall).inHand trivial ▸ hnone t
    · intro hnone t
      cases hcall : m.db.calls.get? t with
      | none => exact (hm.idle t hcall).symm ▸ nofun
      | some c => exact ((hm.calls t c hcall).inHand trivial).symm ▸ hnone t c hcall
  rw [Buffer.isEvictable_iff]
  constructor
  · rintro ⟨f, hf, hclean, hnobody⟩
    exact ⟨f, hf, hclean, fun h => hnobody (.handle h),
      (hhands f).mp fun t => hnobody (.operation t)⟩
  · rintro ⟨f, hf, hclean, hkept, hhand⟩
    refine ⟨f, hf, hclean, fun who => ?_⟩
    cases who with
    | handle h => exact hkept h
    | operation t => exact (hhands f).mpr hhand t

/-- The frame is dirty, or kept under a handle, or in the hand of a transaction whose turn it is
not. -/
def Moment.Guards (m : Moment) (o : Occurrence) (f : FrameId) : Prop :=
  (m.db.pool.page f).dirtier ≠ none ∨ (∃ h, m.db.kept? h = some f) ∨
    ∃ t, m.db.inHand? t = some f ∧ m.turn? o ≠ some t

theorem Moment.Guards.not_isEvictable (h : m.Guards o f)
    (hf : m.db.pool.buffer.cached? id = some f) : m.db.pool.buffer.isEvictable id ≠ true := by
  intro hevictable
  obtain ⟨g, hg, hclean, hnobody⟩ := Buffer.isEvictable_iff.mp hevictable
  obtain rfl := Option.some.inj (hf.symm.trans hg)
  rcases h with hdirty | ⟨handle, hkept⟩ | ⟨t, hhand, -⟩
  · exact hdirty hclean
  · exact hnobody (.handle handle) hkept
  · exact hnobody (.operation t) hhand

/-- A fetch makes room for its own page only. -/
theorem Pool.HandsOut.stays {p p' : Pool} {q : PageId} (h : p.HandsOut q keep outcome p')
    (hid : id ∈ p.buffer.order) (hnot : p.buffer.isEvictable id ≠ true) : id ∈ p'.buffer.order := by
  cases h with
  | asleep => exact hid
  | refused e hbuffer _ _ => rwa [hbuffer]
  | answered _ huses _ =>
    have hafter : p.buffer.After (.used q) p'.buffer := huses
    by_contra hgone
    rcases hafter.leaves hid hgone with ⟨why, hlost⟩ | hevictable
    · cases hlost
    · exact hnot hevictable

theorem Step.stays (h : Step m o m') (hm : m.Stable wild) (hp : m.db.pool.Filled wild capacity)
    (hallows : m.Allows wild o) (hf : m.db.pool.buffer.cached? id = some f)
    (hguarded : m.Guards o f) :
    id ∈ m'.db.pool.buffer.order ∨ ∃ why, m.Loses wild o id why := by
  have hid : id ∈ m.db.pool.buffer.order :=
    (hp.listed.mem_iff id).mpr (Buffer.isCached_iff.mpr ⟨f, hf⟩)
  have hpool := (h.progressed hm hallows).pool
  by_cases hidle : m.uses o = []
  · rw [hidle] at hpool
    exact hpool.stays_idle hp hid
  by_cases hkeeps : ∃ handle, m.keeps? o = some handle
  · obtain ⟨handle, hkeeps⟩ := hkeeps
    obtain ⟨q, outcome, hfetches⟩ := h.fetches_of_keeps? hidle hkeeps
    exact Or.inl ((h.handsOut hm hp hfetches).stays hid (hguarded.not_isEvictable hf))
  -- Nobody's handle is touched by this step, so the page remains guarded through all of its deeds.
  have hloyal : m.db.pool.buffer.Guards (fun who => ¬ m.May wild o (.pinned who)) id := by
    refine ⟨f, hf, ?_⟩
    rcases hguarded with hdirty | ⟨handle, hkept⟩ | ⟨t, hhand, hturn⟩
    · exact Or.inl (Option.isSome_iff_ne_none.mpr hdirty)
    · refine Or.inr ⟨.handle handle, ?_, hkept⟩
      rintro (hkeep | ⟨answer, rfl⟩)
      · exact hkeeps ⟨handle, hkeep⟩
      · exact hidle (m.aside rfl answer).2
    · exact Or.inr ⟨.operation t, hturn, hhand⟩
  rcases hpool.stays_guarded hm.housed (fun _ => hidle) hidle (fun _ hnot => hnot) hloyal with
    hguards | hlost
  · exact Or.inl (((hpool.filled hp).listed.mem_iff id).mpr hguards.isCached)
  · exact Or.inr hlost

/-! ## Pages that go -/

/-- How a page leaves that is dirty, or that somebody refers to. -/
inductive Moment.Drops (wild : Prop) (m : Moment) (id : PageId) : Occurrence → Prop
  | discarded (answer : Answer) : m.Drops wild id (.command (.discard id) answer)
  | aborted {t : TxnId} (hheld : id ∈ m.db.locks.heldPages t) (answer : Answer) :
      m.Drops wild id (.command (.abort t) answer)
  /-- The page was to be written back at the commit of its dirtier, and could not be. -/
  | unwritten {t : TxnId} {page : Page} {e : Error} (hfate : (page, some e) ∈ (m.db.fates t).1)
      (hid : page.id = id) (answer : Answer) : m.Drops wild id (.command (.commit t) answer)
  /-- In a tampered run a store may drop pages, too. -/
  | dismissed (hwild : wild) (o : Occurrence) : m.Drops wild id o

/-- A commit drops no page but those that it fails to write. -/
theorem Step.unwritten_of_commit {answer : Answer} (h : Step m (.command (.commit t) answer) m')
    (hframed : m.db.pool.buffer.Framed) (hcached : m.db.pool.buffer.isCached id = true)
    (hgone : m'.db.pool.buffer.isCached id ≠ true) :
    ∃ page e, (page, some e) ∈ (m.db.fates t).1 ∧ page.id = id := by
  obtain ⟨p, hon, hsettled⟩ := Pool.on_settle (t := t) hframed (m.db.locks.heldPages_nodup t)
  generalize ho : Occurrence.command (.commit t) answer = o at h
  cases h with
  | busy => exact absurd hcached hgone
  | plain c _ hplain =>
    obtain ⟨rfl, -⟩ := Occurrence.command.inj ho
    cases hplain
  | commitFault t' fault d _ hsettle =>
    exact absurd (congrArg Prod.fst hsettle) (Pool.settle_ne_fault t' _ m.db.pool fault)
  | commit t' result d _ hsettle =>
    obtain ⟨ht, -⟩ := Occurrence.command.inj ho
    obtain rfl := Command.commit.inj ht
    rw [on_onPool, hon] at hsettle
    obtain ⟨-, rfl⟩ := Prod.mk.inj hsettle
    have hgone' : p.cachedPage? id = none := by
      rw [Pool.cachedPage?, Buffer.cachedPage?_eq_none]
      exact Option.not_isSome_iff_eq_none.mp hgone
    by_cases hdue : ∃ page ∈ m.db.due t, page.id = id
    · obtain ⟨page, hpage, rfl⟩ := hdue
      have hattempted : page ∈ (m.db.fates t).1.map Prod.fst :=
        (Disk.pages_fates m.db.pool.disk m.db.pool.journal (m.db.due t)).symm ▸ hpage
      obtain ⟨⟨_, failure⟩, hfate, rfl⟩ := List.mem_map.mp hattempted
      cases failure with
      | none => cases hgone'.symm.trans (hsettled.written _ hfate).1
      | some e => exact ⟨_, e, hfate, rfl⟩
    · have hspared := hsettled.others id fun page hpage heq => hdue ⟨page, hpage, heq⟩
      rw [hspared.cache, Pool.cachedPage?, Buffer.cachedPage?_eq_none] at hgone'
      exact absurd hcached (Option.not_isSome_iff_eq_none.mpr hgone')
  | _ => cases ho

theorem Step.stays_or_drops (h : Step m o m') (hm : m.Stable wild)
    (hp : m.db.pool.Filled wild capacity) (hallows : m.Allows wild o)
    (hf : m.db.pool.buffer.cached? id = some f) (hguarded : m.Guards o f) :
    id ∈ m'.db.pool.buffer.order ∨ m.Drops wild id o := by
  rcases h.stays hm hp hallows hf hguarded with hstays | ⟨why, hloses⟩
  · exact Or.inl hstays
  cases why with
  | discarded =>
    obtain ⟨answer, rfl⟩ := hloses
    exact Or.inr (.discarded answer)
  | dismissed => exact Or.inr (.dismissed hloses o)
  | aborted t =>
    obtain ⟨⟨answer, rfl⟩, hheld⟩ := hloses
    exact Or.inr (.aborted hheld answer)
  | unwritten t =>
    obtain ⟨⟨answer, rfl⟩, -⟩ := hloses
    have hp' := (h.progressed hm hallows).pool.filled hp
    by_cases hstays : m'.db.pool.buffer.isCached id = true
    · exact Or.inl ((hp'.listed.mem_iff id).mpr hstays)
    · obtain ⟨page, e, hfate, hid⟩ := h.unwritten_of_commit hm.housed.framed
        (Buffer.isCached_iff.mpr ⟨f, hf⟩) hstays
      exact Or.inr (.unwritten hfate hid answer)

theorem Step.kept?_of_dropped {h : HandleId} {answer : Answer}
    (hstep : Step m (.command (.dropHandle h) answer) m') : m'.db.kept? h = none := by
  generalize ho : Occurrence.command (.dropHandle h) answer = o at hstep
  cases hstep with
  | busy c hbusy =>
    obtain ⟨rfl, -⟩ := Occurrence.command.inj ho
    cases hbusy
  | plain c _ _ =>
    obtain ⟨rfl, -⟩ := Occurrence.command.inj ho
    exact SortedMap.get?_erase_self m.db.pool.buffer.holders (.handle h)
  | _ => cases ho

/-! ## Runs -/

/-- A run in which nothing happens but what is allowed, and the pages that were used in it, one
after the other. -/
inductive Usage (wild : Prop) (m : Moment) : List Occurrence → List PageId → Moment → Prop
  | nil : Usage wild m [] [] m
  | snoc {occurrences : List Occurrence} {used : List PageId} {m' m'' : Moment} {o : Occurrence}
      (h : Usage wild m occurrences used m') (hstep : Step m' o m'') (hallows : m'.Allows wild o) :
      Usage wild m (occurrences ++ [o]) (used ++ m'.uses o) m''

theorem AllowedRun.usage (h : AllowedRun wild m occurrences m') :
    ∃ used, Usage wild m occurrences used m' := by
  induction h with
  | nil => exact ⟨[], .nil⟩
  | snoc _ hstep hallows ih =>
    obtain ⟨used, husage⟩ := ih
    exact ⟨_, husage.snoc hstep hallows⟩

namespace Usage

theorem allowedRun (h : Usage wild m occurrences used m') : AllowedRun wild m occurrences m' := by
  induction h with
  | nil => exact .nil
  | snoc _ hstep hallows ih => exact ih.snoc hstep hallows

theorem leadsTo (h : Usage wild m occurrences used m') (hm : m.Stable wild) :
    Pool.LeadsTo wild (fun _ => True) used m.db.pool m'.db.pool := by
  induction h with
  | nil => exact .refl _
  | snoc hrun hstep hallows ih =>
    have hlast := (hstep.progressed (hrun.allowedRun.stable hm) hallows).pool
    exact ih.trans (hlast.mono fun _ _ => trivial)

end Usage

/-- What holds of the cache after a run in which pages were used one after the other, and of every
step that may come next. -/
structure CacheDiscipline (wild : Prop) (capacity : Nat) (used : List PageId) (m : Moment) :
    Prop where
  mem_iff : ∀ id, id ∈ m.db.pool.buffer.order ↔ m.db.pool.buffer.isCached id = true
  nodup : m.db.pool.buffer.order.Nodup
  capacity_eq : m.db.pool.buffer.capacity = capacity
  length_le : m.db.pool.buffer.order.length ≤ capacity
  /-- The pages stand in the order of their last uses. -/
  recent : m.db.pool.buffer.order = used.dedup.filter m.db.pool.buffer.isCached
  /-- A page may go if it is clean, no handle keeps it, and no call has it in hand. -/
  evictable_iff : ∀ id, m.db.pool.buffer.isEvictable id = true ↔ ∃ f,
    m.db.pool.buffer.cached? id = some f ∧ (m.db.pool.page f).dirtier = none ∧
      (∀ h, m.db.kept? h ≠ some f) ∧ ∀ t c, m.db.calls.get? t = some c → c.inHand? ≠ some f
  /-- For a page that comes into a full cache the first page goes that may go. -/
  room : m.db.pool.MakesRoom
  failed : ∀ id e p', (Pool.fetch id).on m.db.pool = (.ok (.error e), p') →
    p'.buffer = m.db.pool.buffer
  /-- A step comes down to deeds that keep the discipline, and uses the pages that its calls fetch
  and change. -/
  steps : ∀ o m', Step m o m' → m.Allows wild o →
    ∃ ds, Pool.Course (Pool.Minds wild (m.Loses wild o)) m.db.pool ds m'.db.pool ∧
      usesOf ds = m.uses o
  /-- A fetch that is answered, be it at once or after it slept, has used its page, and its handle
  keeps it.  One that is refused changes nothing in the buffer. -/
  fetched : ∀ id keep outcome o m', m.Fetches id keep outcome o → Step m o m' →
    m.db.pool.HandsOut id keep outcome m'.db.pool
  /-- A handle keeps its page until it is dropped, or gets another one. -/
  kept : ∀ h o m', Step m o m' → m.Allows wild o → ¬ m.Concerns h o → m'.db.kept? h = m.db.kept? h
  dropped : ∀ h answer m', Step m (.command (.dropHandle h) answer) m' → m'.db.kept? h = none
  stays : ∀ id f o m', Step m o m' → m.Allows wild o → m.db.pool.buffer.cached? id = some f →
    m.Guards o f → id ∈ m'.db.pool.buffer.order ∨ m.Drops wild id o

/-- Take any capacity, any log, any files and any run that begins with an empty cache, whatever may
fail in it, and look at the cache at any moment.  In a run that is not tampered with no page is
dismissed by its store. -/
theorem cache_disciplined {wild : Prop} {capacity : Nat} {journal : Journal} {disk : Disk}
    {occurrences : List Occurrence} {m : Moment} (hdisk : wild ∨ disk.Mounted)
    (hrun : AllowedRun wild ⟨[], Database.create capacity journal disk⟩ occurrences m) :
    (∃ used, Usage wild ⟨[], Database.create capacity journal disk⟩ occurrences used m) ∧
      ∀ used, Usage wild ⟨[], Database.create capacity journal disk⟩ occurrences used m →
        CacheDiscipline wild capacity used m := by
  refine ⟨hrun.usage, fun used husage => ?_⟩
  have hstart := stable_create capacity journal hdisk
  have hfilled : (Database.create capacity journal disk).pool.Filled wild capacity :=
    ⟨hstart.housed, Buffer.listed_empty capacity, rfl⟩
  have hstable := hrun.stable hstart
  have hleads := husage.leadsTo hstart
  have hm := hleads.filled hfilled
  constructor
  case mem_iff => exact hm.listed.mem_iff
  case nodup => exact hm.listed.nodup
  case capacity_eq => exact hm.capacity
  case length_le => exact hm.capacity ▸ hm.listed.length_le
  case recent => exact hleads.order hfilled rfl
  case evictable_iff => exact fun id => hstable.isEvictable_iff
  case room => exact hm.makesRoom
  case failed => exact fun id e p' h => Pool.buffer_of_fetch_failed h
  case steps =>
    intro o m' hstep hallows
    obtain ⟨ds, hcourse, hused⟩ :=
      (hstep.progressed hstable hallows).pool.course fun _ _ hloses => hloses
    exact ⟨ds, (hcourse.minds hm).2, hused⟩
  case fetched =>
    exact fun id keep outcome o m' hfetches hstep => hstep.handsOut hstable hm hfetches
  case kept =>
    intro h o m' hstep hallows hconcerns
    exact (hstep.progressed hstable hallows).pool.holders hstable.housed hconcerns
  case dropped => exact fun h answer m' hstep => hstep.kept?_of_dropped
  case stays =>
    intro id f o m' hstep hallows hf hguards
    exact hstep.stays_or_drops hstable hm hallows hf hguards

/-- A row goes to each of two tables.  The second one is committed, and its page kept under a
handle; then another row is to go to a third table. -/
def dirtyAndKept : List Command :=
  [.insert ⟨1⟩ ⟨1⟩ [7] .tracked, .insert ⟨2⟩ ⟨2⟩ [8] .tracked, .commit ⟨2⟩,
    .fetch ⟨3⟩ ⟨⟨2⟩, 0⟩ .shared (some ⟨1⟩), .insert ⟨4⟩ ⟨3⟩ [9] .tracked]

/-- In a cache of two neither page makes room for a third one, until the handle is dropped. -/
theorem cache_disciplined_dirtyAndKept :
    ∃ occurrences used m,
      AllowedRun False ⟨[], Database.create 2 .fresh threeTables⟩ occurrences m ∧
      Usage False ⟨[], Database.create 2 .fresh threeTables⟩ occurrences used m ∧
      CacheDiscipline False 2 used m ∧
      m.db.pool.buffer.order = [⟨⟨1⟩, 0⟩, ⟨⟨2⟩, 0⟩] ∧
      m.db.kept? ⟨1⟩ = m.db.pool.buffer.cached? ⟨⟨2⟩, 0⟩ ∧
      ((Pool.fetch ⟨⟨3⟩, 0⟩).on m.db.pool).1 = .ok (.error (.exhausted 2)) ∧
      ((Pool.fetch ⟨⟨3⟩, 0⟩).on (m.db.letGo (.handle ⟨1⟩)).pool).2.buffer.order =
        [⟨⟨1⟩, 0⟩, ⟨⟨3⟩, 0⟩] := by
  have hdisk := ((Disk.mounted_empty.addTable ⟨1⟩).addTable ⟨2⟩).addTable ⟨3⟩
  have htame : ∀ c ∈ dirtyAndKept, c.IsTame := by simp [dirtyAndKept, Command.IsTame]
  obtain ⟨occurrences, hallowed⟩ := AllowedRun.of_performAll False
    (Database.create 2 .fresh threeTables) htame
  obtain ⟨⟨used, husage⟩, hdisciplined⟩ := cache_disciplined (Or.inr hdisk) hallowed
  refine ⟨occurrences, used, _, hallowed, husage, hdisciplined used husage, ?_, ?_, ?_, ?_⟩
  · decide +kernel
  · decide +kernel
  · decide +kernel
  · decide +kernel

end PagedHeap
