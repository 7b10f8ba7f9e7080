import PagedHeap.Proofs.Database.Insertions
import PagedHeap.Proofs.Database.Logging
import PagedHeap.Proofs.Database.Schedules
import PagedHeap.Proofs.Database.Snapshots
import PagedHeap.Proofs.Pool.Untouched

/-!
# Row operations that do not succeed

An insertion or a deletion asks for locks, fetches pages and appends blank ones, and marks a page
only once nothing can stand in the way of the change.  So a turn in which it fails or falls asleep
leaves every page as it was, and the locks of all others.
-/

namespace PagedHeap

open Database

/-- A transaction has asked for locks: nobody has lost any, and to the others nothing has
happened. -/
structure LockTable.Keeps (t : TxnId) (l l' : LockTable) : Prop where
  own : ∀ page mode, l.holds t page mode = true → l'.holds t page mode = true
  others : ∀ u page mode, u ≠ t → l'.holds u page mode = l.holds u page mode
  sleepers : ∀ r : LockRequest, r.txn ≠ t → (r ∈ l'.sleepers ↔ r ∈ l.sleepers)

/-- The call changes a row of the table, through the catalog. -/
structure Call.Alters (t : TxnId) (table : TableId) (c : Call) : Prop where
  txn_eq : c.txn = t
  table_eq : c.page.table = table
  errand : (∃ row ahead, c.errand = .insert row ahead .tracked) ∨
    ∃ slot, c.errand = .delete slot .tracked

/-- A turn of an insertion into the table, or of a deletion from it, in which it does not succeed. -/
inductive Moment.Refuses (m : Moment) (t : TxnId) (table : TableId) : Occurrence → Prop
  | insert (row : Row) {answer : Answer} (hnot : ∀ reply, answer ≠ .replied (.ok reply)) :
      m.Refuses t table (.command (.insert t table row .tracked) answer)
  | delete (rid : RecordId) {answer : Answer} (hnot : ∀ reply, answer ≠ .replied (.ok reply)) :
      m.Refuses t table (.command (.delete t table rid .tracked) answer)
  | resumed (c : Call) {outcome : Option Outcome} (hcall : m.db.calls.get? t = some c)
      (halters : c.Alters t table) (hnot : ∀ reply, outcome ≠ some (.ok (.ok reply))) :
      m.Refuses t table (.resumed t outcome)

/-- No page has been changed and no lock given up. -/
structure LeftAlone (t : TxnId) (table : TableId) (d d' : Database) : Prop where
  pool : d.pool.Untouched table d'.pool
  locks : d.locks.Keeps t d'.locks

/-- A page on which a change was found possible is marked, and then nothing fails any more. -/
structure Database.Resolute (d : Database) : Prop where
  insert : ∀ c row ahead f p, (Pool.fetch c.page).on d.pool = (.ok (.ok f), p) →
    (p.page f).hasRoom row.length = .ok true →
    ∃ rid d', (insertHere c row ahead .tracked).on d = (.ok (.ok (.finished (.inserted rid))), d')
  delete : ∀ c slot row f p, (Pool.fetch c.page).on d.pool = (.ok (.ok f), p) →
    (p.page f).row slot = .ok (.ok row) →
    ∃ d', (deleteHere c slot .tracked).on d = (.ok (.ok (.finished .deleted)), d')

/-- So a turn of a row operation ends that does not succeed.  If the call is not over, it goes on as
a call of this kind. -/
structure Refused (t : TxnId) (table : TableId) (d : Database) (outcome : Option Outcome)
    (d' : Database) : Prop where
  leftAlone : LeftAlone t table d d'
  asleep : outcome = none → ∃ c, d'.calls.get? t = some c ∧ c.Alters t table

/-- What a turn of a row operation leaves in which it does not succeed. -/
structure Moment.Refused (m : Moment) (t : TxnId) (table : TableId) (o : Occurrence) (m' : Moment) :
    Prop where
  untouched : LeftAlone t table m.db m'.db
  /-- If the call is not over, the same can be said of its next turn. -/
  asleep : (∃ command, o = .command command .asleep) ∨ o = .resumed t none →
    ∃ c, m'.db.calls.get? t = some c ∧ c.Alters t table
  /-- Whatever pages the turn has fetched or appended so far. -/
  resolute : ∀ d : Database, m.db.pool.Untouched table d.pool → d.pool.Intact → d.Resolute

/-- Pages may have come into the cache and others left it, and blank ones been appended. -/
structure Idle (table : TableId) (d d' : Database) : Prop where
  intact : d'.pool.Intact
  untouched : d.pool.Untouched table d'.pool
  locks : d'.locks = d.locks

/-- What ends the turn here was refused in time, or another lock is wanted in time. -/
abbrev LandsUntouched (t : TxnId) (table : TableId) (d : Database)
    (x : Checked (Except Error Progress) × Database) : Prop :=
  Lands (fun next d' => next.Alters t table ∧ (d'.pool.disk.Roomy → Idle table d d'))
    (fun outcome d' => (∀ reply, outcome ≠ .ok (.ok reply)) → d'.pool.disk.Roomy → Idle table d d')
    x

variable {t u : TxnId} {table : TableId} {d d' d'' : Database} {c next : Call} {row : Row}
  {ahead : Nat} {slot : SlotId} {f : FrameId} {p p' : Pool} {id : PageId} {reply : Reply}
  {l l' l'' : LockTable} {r : LockRequest} {m m' : Moment} {o : Occurrence}
  {outcome : Option Outcome} {act : Act Database Progress}

/-! ## Locks -/

namespace LockTable.Keeps

theorem refl (t : TxnId) (l : LockTable) : l.Keeps t l :=
  ⟨fun _ _ h => h, fun _ _ _ _ => rfl, fun _ _ => Iff.rfl⟩

theorem trans (h : l.Keeps t l') (h' : l'.Keeps t l'') : l.Keeps t l'' where
  own page mode hholds := h'.own page mode (h.own page mode hholds)
  others u page mode hne := (h'.others u page mode hne).trans (h.others u page mode hne)
  sleepers r hne := (h'.sleepers r hne).trans (h.sleepers r hne)

theorem request (l : LockTable) (r : LockRequest) : l.Keeps r.txn (l.request r).2 := by
  refine ⟨fun page mode => holds_request, fun u page mode hne => ?_, fun r' hne => ?_⟩
  · rcases request_cases_any l r with ⟨g, hgrant, hrequest⟩ | ⟨-, hrequest | hrequest⟩
    · rw [hrequest, holds, grantOf_grantTo]
      split
      case isTrue heq => exact heq ▸ Grant.satisfies_eq_of_grant? hgrant hne
      case isFalse => rfl
    · rw [hrequest]
      rfl
    · rw [hrequest]
      rfl
  · rcases request_cases_any l r with ⟨g, -, hrequest⟩ | ⟨-, hrequest | hrequest⟩
    · rw [hrequest]
      exact Iff.rfl
    · rw [hrequest]
      exact Iff.rfl
    · rw [hrequest, putToSleep, List.mem_append, List.mem_singleton]
      exact or_iff_left fun heq => hne (heq ▸ rfl)

end LockTable.Keeps

namespace LeftAlone

theorem refl (t : TxnId) (table : TableId) (d : Database) : LeftAlone t table d d :=
  ⟨.refl table d.pool, .refl t d.locks⟩

theorem trans (h : LeftAlone t table d d') (h' : LeftAlone t table d' d'') :
    LeftAlone t table d d'' :=
  ⟨h.pool.trans h'.pool, h.locks.trans h'.locks⟩

theorem onPool (t : TxnId) (h : d.pool.Untouched table p) :
    LeftAlone t table d (d.withPool p) :=
  ⟨h, .refl t d.locks⟩

theorem letGo (h : LeftAlone t table d d') (who : Holder) :
    LeftAlone t table d (d'.letGo who) :=
  h.trans (.onPool t (.holders table d'.pool _))

end LeftAlone

namespace Call.Alters

theorem not_scans (h : c.Alters t table) (id : CursorId) : ¬ c.Scans id := by
  rintro ⟨harvest, hscans⟩
  rcases h.errand with ⟨row, ahead, herrand⟩ | ⟨slot, herrand⟩
  · cases herrand.symm.trans hscans
  · cases herrand.symm.trans hscans

theorem goesOn (h : c.Alters t table) (d : Database) : c.GoesOn False False c.txn c.keeps? d := by
  refine Call.goesOn (fun f rest reply hdetour => ?_) rfl (fun _ hkeep => hkeep)
    (fun id harvest hscans => absurd ⟨harvest, hscans⟩ (h.not_scans id)) False.elim
  rcases h.errand with ⟨row, ahead, herrand⟩ | ⟨slot, herrand⟩
  · cases herrand.symm.trans hdetour
  · cases herrand.symm.trans hdetour

end Call.Alters

/-! ## Changes that were found possible -/

/-- A fetched page is in order. -/
theorem Pool.Intact.fetched (hp : p.Intact) (ho : p.InOrder)
    (h : (Pool.fetch id).on p = (.ok (.ok f), p')) :
    p'.Intact ∧ p'.buffer.cached? id = some f ∧ (p'.page f).image.Layout := by
  obtain ⟨hp', huntouched⟩ := hp.untouched_fetch id.table h
  have hf := Pool.cached?_of_fetch hp.housed.framed h
  refine ⟨hp', hf, huntouched.inOrder ho id _ ?_⟩
  exact Pool.content?_of_cached (Buffer.cachedPage?_of_cached hf)

/-- A changed page that is still cached is tracked. -/
theorem finished_of_marked (hm : p.disk.Mounted) (h : p.Marked id f p') (t : TxnId)
    (table : TableId) (reply : Reply) (d : Database) :
    ∃ d', (afterChange t table f reply).on (d.withPool p') =
      (.ok (.ok (.finished reply)), d') := by
  have hm' : (d.withPool p').pool.disk.Mounted := h.disk.symm ▸ hm
  obtain ⟨p'', htrack⟩ := Pool.track_of_cached
    (p := (((d.withPool p').hold (.operation t) f).letGo (.operation t)).pool) h.framed h.cached t
  rw [on_afterChange hm']
  simp only [handBack, Act.on_bind, Act.on_modify, on_onPool, htrack, Act.on_pure]
  exact ⟨_, rfl⟩

theorem Pool.Intact.resolute (hp : d.pool.Intact) (ho : d.pool.InOrder) : d.Resolute where
  insert c row ahead f p hfetch hroom := by
    obtain ⟨hp', hf, hpage⟩ := hp.fetched ho hfetch
    obtain ⟨rid, p', hplaced, hmarked⟩ :=
      placeRow_of_hasRoom hp'.housed.framed hf hpage c.txn hroom
    obtain ⟨d', hdone⟩ := finished_of_marked hp'.mounted hmarked c.txn c.page.table
      (.inserted rid) (d.withPool p)
    refine ⟨rid, d', ?_⟩
    simp only [insertHere, Act.on_bind, on_onPool, hfetch]
    exact hplaced ▸ hdone
  delete c slot row f p hfetch hrow := by
    obtain ⟨hp', hf, hpage⟩ := hp.fetched ho hfetch
    obtain ⟨p', hremoved, hmarked⟩ := removeRow_of_row hp'.housed.framed hf hpage c.txn hrow
    obtain ⟨d', hdone⟩ := finished_of_marked hp'.mounted hmarked c.txn c.page.table .deleted
      (d.withPool p)
    refine ⟨d', ?_⟩
    simp only [deleteHere, Act.on_bind, on_onPool, hfetch]
    exact hremoved ▸ hdone

/-! ## From one lock request to the next -/

namespace Idle

theorem refl (table : TableId) (h : d.pool.Intact) : Idle table d d :=
  ⟨h, .refl table d.pool, rfl⟩

theorem trans (h : Idle table d d') (h' : Idle table d' d'') : Idle table d d'' :=
  ⟨h'.intact, h.untouched.trans h'.untouched, h'.locks.trans h.locks⟩

theorem onPool (h : p.Intact ∧ d.pool.Untouched table p) : Idle table d (d.withPool p) :=
  ⟨h.1, h.2, rfl⟩

theorem leftAlone (h : Idle table d d') (t : TxnId) : LeftAlone t table d d' := by
  refine ⟨h.untouched, ?_⟩
  rw [h.locks]
  exact .refl t d.locks

end Idle

namespace LandsUntouched

variable {x : Checked (Except Error Progress) × Database}

theorem done (t : TxnId) (table : TableId) (d : Database) (reply : Reply) (d' : Database) :
    LandsUntouched t table d (.ok (.ok (.finished reply)), d') :=
  .finished fun hnot => absurd rfl (hnot reply)

theorem denied (t : TxnId) (e : Error) (h : Idle table d d') :
    LandsUntouched t table d (.ok (.error e), d') :=
  .refused fun _ _ => h

theorem broken (t : TxnId) (fault : Fault) (h : Idle table d d') :
    LandsUntouched t table d (.error fault, d') :=
  .fault fun _ _ => h

theorem after (h : Idle table d d') (h' : LandsUntouched t table d' x) :
    LandsUntouched t table d x := by
  apply h'.mono
  · exact fun next d'' hnext => ⟨hnext.1, fun hroom => h.trans (hnext.2 hroom)⟩
  · exact fun outcome d'' hend hnot hroom => h.trans (hend hnot hroom)

end LandsUntouched

theorem landsUntouched_insertFrom (hp : d.pool.Intact) (t : TxnId) (table : TableId)
    (pageNo : UInt32) (row : Row) (ahead : Nat) :
    LandsUntouched t table d ((insertFrom t table pageNo row ahead .tracked).on d) := by
  cases ahead with
  | succ ahead => exact .wants ⟨⟨rfl, rfl, Or.inl ⟨row, ahead, rfl⟩⟩, fun _ => .refl table hp⟩
  | zero =>
    simp only [insertFrom, insertBehind, Act.on_bind, on_onPool]
    rcases happend : (Pool.appendPage table).on d.pool with ⟨fault | e | page, p⟩
    · exact .fault fun _ hroom => Idle.onPool (hp.untouched_append happend hroom)
    · exact .refused fun _ hroom => Idle.onPool (hp.untouched_append happend hroom)
    · have htable : page.table = table := Pool.table_of_append hp.mounted happend
      exact .wants ⟨⟨rfl, htable, Or.inl ⟨row, 0, rfl⟩⟩,
        fun hroom => Idle.onPool (hp.untouched_append happend hroom)⟩

/-- What is done with a page begins with fetching it. -/
theorem landsUntouched_fetch {k : FrameId → Act Database Progress} (hp : d.pool.Intact)
    (ho : d.pool.InOrder) (hk : ∀ (f : FrameId) (d : Database), d.pool.Intact →
      d.pool.buffer.cached? id = some f → (d.pool.page f).image.Layout →
      LandsUntouched t table d ((k f).on d)) :
    LandsUntouched t table d ((Database.onPool (Pool.fetch id) >>= k).on d) := by
  simp only [Act.on_bind, on_onPool]
  rcases hfetch : (Pool.fetch id).on d.pool with ⟨x, p⟩
  have hfetched : Idle table d (d.withPool p) := .onPool (hp.untouched_fetch table hfetch)
  rcases x with fault | e | f
  · exact .broken t fault hfetched
  · exact .denied t e hfetched
  · obtain ⟨hp', hf, hpage⟩ := hp.fetched ho hfetch
    exact .after hfetched (hk f (d.withPool p) hp' hf hpage)

theorem landsUntouched_insertHere (hp : d.pool.Intact) (ho : d.pool.InOrder)
    (c : Call) (row : Row) (ahead : Nat) :
    LandsUntouched c.txn c.page.table d ((insertHere c row ahead .tracked).on d) := by
  apply landsUntouched_fetch hp ho
  intro f d hp hf hpage
  simp only [Act.on_bind, on_onPool]
  rcases Pool.placeRow_any hp.housed.framed hf hpage c.txn row with
    ⟨rid, p, hplaced, hmarked⟩ | hfull | ⟨fault, hfault⟩
  · obtain ⟨d', hdone⟩ := finished_of_marked hp.mounted hmarked c.txn c.page.table
      (.inserted rid) d
    rw [hplaced]
    simp only [hdone]
    exact .done c.txn c.page.table d _ d'
  · rw [hfull]
    exact landsUntouched_insertFrom hp c.txn c.page.table (c.page.pageNo + 1) row ahead
  · rw [hfault]
    exact .broken c.txn fault (.refl c.page.table hp)

theorem landsUntouched_deleteHere (hp : d.pool.Intact) (ho : d.pool.InOrder)
    (c : Call) (slot : SlotId) :
    LandsUntouched c.txn c.page.table d ((deleteHere c slot .tracked).on d) := by
  apply landsUntouched_fetch hp ho
  intro f d hp hf hpage
  simp only [Act.on_bind, on_onPool]
  rcases Pool.removeRow_any hp.housed.framed hf hpage c.txn slot with
    ⟨p, hremoved, hmarked⟩ | ⟨e, hrefused⟩ | ⟨fault, hfault⟩
  · obtain ⟨d', hdone⟩ := finished_of_marked hp.mounted hmarked c.txn c.page.table .deleted d
    rw [hremoved]
    simp only [hdone]
    exact .done c.txn c.page.table d _ d'
  · rw [hrefused]
    exact .denied c.txn e (.refl c.page.table hp)
  · rw [hfault]
    exact .broken c.txn fault (.refl c.page.table hp)

theorem Call.Alters.landsUntouched (hc : c.Alters t table) (hp : d.pool.Intact)
    (ho : d.pool.InOrder) : LandsUntouched t table d ((proceed c).on d) := by
  obtain ⟨rfl, rfl, ⟨row, ahead, herrand⟩ | ⟨slot, herrand⟩⟩ := hc
  · rw [proceed, herrand]
    exact landsUntouched_insertHere hp ho c row ahead
  · rw [proceed, herrand]
    exact landsUntouched_deleteHere hp ho c slot

theorem landsUntouched_beginInsert (hp : d.pool.Intact) (t : TxnId) (table : TableId)
    (row : Row) : LandsUntouched t table d ((beginInsert t table row .tracked).on d) := by
  apply lands_beginInsert table row
  · exact fun e _ _ => .refl table hp
  · exact fun _ => landsUntouched_insertFrom hp t table 0 row _

theorem landsUntouched_beginDelete (hp : d.pool.Intact) (t : TxnId) (table : TableId)
    (rid : RecordId) : LandsUntouched t table d ((beginDelete t table rid .tracked).on d) := by
  have hidle : Idle table d d := .refl table hp
  rw [beginDelete, if_pos rfl]
  simp only [Act.on_bind, Act.on_get, Act.on_ofResult]
  cases d.pool.disk.lookup table with
  | error e => exact .denied t e hidle
  | ok store =>
    simp only
    cases hs : d.pool.disk.store? table with
    | none => exact .denied t _ hidle
    | some store =>
      simp only [Act.on_bind, Act.on_ofResult]
      cases hrequire : store.require rid.page with
      | error e => exact .denied t e hidle
      | ok _ =>
        have htable : rid.page.table = table := by
          rw [Pool.table_of_require hrequire]
          exact (hp.mounted table store hs).1
        exact .wants ⟨⟨rfl, htable, Or.inr ⟨rid.slot, rfl⟩⟩, fun _ => hidle⟩

/-! ## Turns -/

theorem Pool.LeadsTo.roomy {may : Deed → Prop} {used : List PageId} {p p' : Pool}
    (h : Pool.LeadsTo False may used p p') (hp : p.Housed False) (hroom : p'.disk.Roomy) :
    p.disk.Roomy :=
  hroom.of_le (h.pages_le hp)

theorem Refused.after (h : LeftAlone t table d d') (h' : Refused t table d' outcome d'') :
    Refused t table d outcome d'' :=
  ⟨h.trans h'.leftAlone, h'.asleep⟩

theorem LeftAlone.refused (h : LeftAlone t table d d') (outcome : Outcome) :
    Refused t table d (some outcome) d' :=
  ⟨h, fun heq => by cases heq⟩

/-- A call that fails lets go of what it holds of pages, not of locks. -/
theorem Call.Alters.refused_fail (hc : c.Alters t table) (h : LeftAlone t table d d') (e : Error) :
    Refused t table d (some (.ok (d'.fail c e).1)) (d'.fail c e).2 := by
  rw [fail_of_not_scans hc.not_scans]
  exact (h.letGo _).refused _

theorem refused_runBounded (n : Nat) (hp : d.pool.Intact) (ho : d.pool.InOrder)
    (hc : c.Alters t table) (hroom : (runBounded n c d).2.pool.disk.Roomy)
    (hnot : ∀ reply, (runBounded n c d).1 ≠ some (.ok (.ok reply))) :
    Refused t table d (runBounded n c d).1 (runBounded n c d).2 := by
  induction n generalizing c d with
  | zero => exact ((LeftAlone.refl t table d).letGo _).refused _
  | succ n ih =>
    have hkeeps : d.locks.Keeps t (d.locks.request c.request).2 := by
      rw [← hc.txn_eq]
      exact .request d.locks c.request
    rw [runBounded] at hroom hnot ⊢
    generalize d.locks.request c.request = y at hkeeps hroom hnot ⊢
    obtain ⟨verdict, locks⟩ := y
    have hasked : LeftAlone t table d { d with locks } := ⟨.refl table d.pool, hkeeps⟩
    cases verdict with
    | deadlock => exact hc.refused_fail hasked _
    | asleep =>
      refine ⟨⟨.refl table d.pool, hkeeps⟩, fun _ => ⟨c, ?_, hc⟩⟩
      rw [← hc.txn_eq]
      exact SortedMap.get?_insert_self _ _ _
    | granted =>
      have hlands : LandsUntouched t table { d with locks } ((proceed c).on { d with locks }) :=
        hc.landsUntouched hp ho
      obtain ⟨hworked, -⟩ : c.Works False False c.keeps? { d with locks } :=
        works_proceed hp.housed (hc.goesOn _)
      simp only at hroom hnot ⊢
      generalize (proceed c).on { d with locks } = x at hlands hroom hnot hworked ⊢
      cases hlands with
      | finished h => exact absurd rfl (hnot _)
      | @refused e d' h =>
        have hfailed : (d'.fail c e).2.pool.disk.Roomy := hroom
        rw [fail_of_not_scans hc.not_scans] at hfailed
        have hidle := h (fun _ heq => by cases heq) hfailed
        exact hc.refused_fail (hasked.trans (hidle.leftAlone t)) e
      | @fault fault d' h =>
        have hidle := h (fun _ heq => by cases heq) hroom
        exact ((hasked.trans (hidle.leftAlone t)).letGo _).refused _
      | @wants next d' h =>
        obtain ⟨hnext, hidle⟩ := h
        have hd' := hworked.pool.housed hp.housed
        have hrest := took_runBounded n hd' (hnext.goesOn d')
        replace hidle := hidle (hrest.pool.roomy hd' hroom)
        exact .after (hasked.trans (hidle.leftAlone t))
          (ih hidle.intact (hidle.untouched.inOrder ho) hnext hroom hnot)

theorem refused_start (hp : d.pool.Intact) (ho : d.pool.InOrder)
    (hlands : LandsUntouched t table d (act.on d))
    (hworks : Works False Deed.OfRows (fun _ => []) (Progress.FitsIdly False False t none) d act)
    (hroom : (start act d).2.pool.disk.Roomy)
    (hnot : ∀ reply, (start act d).1 ≠ some (.ok (.ok reply))) :
    Refused t table d (start act d).1 (start act d).2 := by
  obtain ⟨hworked, -⟩ := hworks
  rw [start] at hroom hnot ⊢
  generalize act.on d = x at hlands hroom hnot hworked ⊢
  cases hlands with
  | finished h => exact absurd rfl (hnot _)
  | refused h => exact ((h (fun _ heq => by cases heq) hroom).leftAlone t).refused _
  | fault h => exact ((h (fun _ heq => by cases heq) hroom).leftAlone t).refused _
  | @wants next d' h =>
    obtain ⟨hnext, hidle⟩ := h
    have hd' := hworked.pool.housed hp.housed
    have hrest := took_runBounded (d'.patience next) hd' (hnext.goesOn d')
    replace hidle := hidle (hrest.pool.roomy hd' hroom)
    exact .after (hidle.leftAlone t)
      (refused_runBounded _ hidle.intact (hidle.untouched.inOrder ho) hnext hroom hnot)

/-! ## Steps -/

theorem Moment.refused_begun {command : Command} {answer : Answer} (hp : m.db.pool.Intact)
    (ho : m.db.pool.InOrder) (hstep : Step m (.command command answer) m')
    (hplain : command.releases = false) (hcarry : m.db.carryOut command = m.db.call act)
    (hlands : LandsUntouched t table m.db (act.on m.db))
    (hworks : Works False Deed.OfRows (fun _ => []) (Progress.FitsIdly False False t none) m.db act)
    (hroom : m'.db.pool.disk.Roomy) (hnot : ∀ reply, answer ≠ .replied (.ok reply)) :
    m.Refused t table (.command command answer) m' := by
  have hresolute : ∀ d : Database, m.db.pool.Untouched table d.pool → d.pool.Intact →
      d.Resolute := fun d huntouched hd => hd.resolute (huntouched.inOrder ho)
  cases hstep with
  | busy =>
    refine ⟨.refl t table m.db, ?_, hresolute⟩
    rintro (⟨command, heq⟩ | heq)
    · cases (Occurrence.command.inj heq).2
    · cases heq
  | plain =>
    obtain ⟨hanswer, hdb⟩ := answer_call m.db act
    rw [hcarry] at hroom hnot ⊢
    rw [hanswer] at hnot ⊢
    rw [hdb] at hroom ⊢
    have hrefused := refused_start hp ho hlands hworks hroom fun reply heq =>
      hnot reply (congrArg answerOf heq)
    refine ⟨hrefused.leftAlone, ?_, hresolute⟩
    rintro (⟨command, heq⟩ | heq)
    · exact hrefused.asleep (answerOf_injective (Occurrence.command.inj heq).2)
    · cases heq
  | commit => cases hplain
  | commitFault => cases hplain
  | abort => cases hplain
  | release => cases hplain

theorem Moment.refused_of_refuses (hp : m.db.pool.Intact) (ho : m.db.pool.InOrder)
    (hstep : Step m o m') (hrefuses : m.Refuses t table o) (hroom : m'.db.pool.disk.Roomy) :
    m.Refused t table o m' := by
  cases hrefuses with
  | insert row hnot =>
    exact m.refused_begun hp ho hstep rfl rfl (landsUntouched_beginInsert hp t table row)
      (works_beginInsert hp.housed False.elim table row _) hroom hnot
  | delete rid hnot =>
    exact m.refused_begun hp ho hstep rfl rfl (landsUntouched_beginDelete hp t table rid)
      (works_beginDelete False.elim table rid _) hroom hnot
  | resumed c hcall halters hnot =>
    cases hstep with
    | resume r _ =>
      rw [resumeOne, hcall] at hroom hnot ⊢
      have hrefused := refused_runBounded _ (d := { m.db with calls := m.db.calls.erase r.txn })
        hp ho halters hroom hnot
      refine ⟨⟨hrefused.leftAlone.pool, hrefused.leftAlone.locks⟩, ?_,
        fun d huntouched hd => hd.resolute (huntouched.inOrder ho)⟩
      rintro (⟨command, heq⟩ | heq)
      · cases heq
      · exact hrefused.asleep (Occurrence.resumed.inj heq).2

/-- Where nothing is changed past the pool, clean pages are what their files hold. -/
theorem AllowedRun.intact {capacity : Nat} {journal : Journal} {disk : Disk}
    {occurrences : List Occurrence} (hdisk : disk.Mounted)
    (hrun : AllowedRun False ⟨[], Database.create capacity journal disk⟩ occurrences m)
    (hroom : m.db.pool.disk.Roomy) : m.db.pool.Intact := by
  obtain ⟨ds, hcourse⟩ := hrun.course (stable_create capacity journal (Or.inr hdisk))
  exact (hcourse.logs (faithful_create capacity journal hdisk) hroom).1.intact

/-- Take any run up to a moment at which the pages are in order.  If pages were changed past the
pool in it, then no clean page may differ from its file by now.  A turn of an insertion or a deletion
that ends with an error, or breaks off, or falls asleep, leaves all pages, the log and the locks of
others as they were, but for blank pages behind those of the table. -/
theorem row_operation_refused {wild : Prop} {capacity : Nat} {journal : Journal} {disk : Disk}
    {occurrences : List Occurrence} (hdisk : wild ∨ disk.Mounted)
    (hrun : AllowedRun wild ⟨[], Database.create capacity journal disk⟩ occurrences m)
    (hintact : wild → m.db.pool.Intact) (ho : m.db.pool.InOrder) (hstep : Step m o m')
    (hrefuses : m.Refuses t table o) (hroom : m'.db.pool.disk.Roomy) :
    m.Refused t table o m' := by
  by_cases hwild : wild
  case pos => exact m.refused_of_refuses (hintact hwild) ho hstep hrefuses hroom
  obtain rfl : wild = False := eq_false hwild
  have hmounted := hdisk.resolve_left hwild
  have hstable := hrun.stable (stable_create capacity journal (Or.inr hmounted))
  have hallows : m.Allows False o := by
    cases hrefuses with
    | insert row => exact Or.inr trivial
    | delete rid => exact Or.inr trivial
    | resumed c => exact trivial
  have hroom₀ := (hstep.progressed hstable hallows).pool.roomy hstable.housed hroom
  exact m.refused_of_refuses (hrun.intact hmounted hroom₀) ho hstep hrefuses hroom

namespace Crowded

/-- The only frame holds a page that the transaction has changed. -/
def full : List Occurrence × Moment :=
  Moment.obeying ⟨[], Database.create 1 .fresh (Disk.ofTables [⟨1⟩, ⟨2⟩])⟩
    [.insert ⟨1⟩ ⟨1⟩ [7] .tracked]

def turn : Option Outcome × Database :=
  start (beginInsert ⟨1⟩ ⟨2⟩ [8] .tracked) full.2.db

/-- A page has been appended to the other table, and could not be fetched. -/
def left : Moment :=
  ⟨full.2.woken, turn.2⟩

def refusal? : Option Outcome → Option Error
  | some (.ok (.error e)) => some e
  | _ => none

theorem eq_of_refusal? {outcome : Option Outcome} {e : Error} (h : refusal? outcome = some e) :
    outcome = some (.ok (.error e)) := by
  rcases outcome with _ | (fault | (e' | reply))
  · cases h
  · cases h
  · rw [Option.some.inj h]
  · cases h

end Crowded

/-- The pool is too small for the second table, and the insertion leaves it a blank page. -/
theorem row_operation_refused_exhausted :
    Crowded.refusal? Crowded.turn.1 = some (.exhausted 1) ∧
      Crowded.full.2.db.pool.disk.pages ⟨2⟩ = 0 ∧ Crowded.left.db.pool.disk.pages ⟨2⟩ = 1 ∧
      Crowded.full.2.Refused ⟨1⟩ ⟨2⟩
        (.command (.insert ⟨1⟩ ⟨2⟩ [8] .tracked) (answerOf Crowded.turn.1)) Crowded.left := by
  have hrun : Run ⟨[], Database.create 1 .fresh (Disk.ofTables [⟨1⟩, ⟨2⟩])⟩ Crowded.full.1
      Crowded.full.2 := Moment.run_obeying _ _
  have horderly : OrderlyRun False Crowded.full.1 :=
    Moment.orderlyRun_obeying (by simp [Command.IsOrderly, Command.Upkeep]) _
  obtain ⟨-, htidy, -⟩ := hrun.claimed horderly
  have htame : ∀ c answer, .command c answer ∈ Crowded.full.1 → c.IsTame := by
    intro c answer hmem
    have hcommand := Moment.mem_of_obeying hmem
    simp only [List.mem_singleton] at hcommand
    exact hcommand ▸ trivial
  have hfree : Crowded.full.2.isBusy (.insert ⟨1⟩ ⟨2⟩ [8] .tracked) = false := by decide +kernel
  have hrefusal : Crowded.refusal? Crowded.turn.1 = some (.exhausted 1) := by decide +kernel
  have hpages : ∀ entry ∈ Crowded.left.db.pool.disk.stores.entries,
      entry.2.volume.medium.length / pageSize < pageBound := by
    decide +kernel
  have hnot : ∀ reply, answerOf Crowded.turn.1 ≠ .replied (.ok reply) := by
    rw [Crowded.eq_of_refusal? hrefusal]
    intro reply heq
    cases heq
  refine ⟨hrefusal, by decide +kernel, by decide +kernel, ?_⟩
  exact row_operation_refused (Or.inr (Disk.fresh_ofTables _).mounted)
    (AllowedRun.of_isTame hrun htame) False.elim (fun _ _ hcontent => htidy.content hcontent)
    (Moment.step_insert hfree) (.insert [8] hnot) (Disk.roomy_of_all hpages)

open Brimming in
/-- All pages of the file are in order, and an insertion that is refused blanks one of them. -/
theorem page_blanked_by_refusal :
    ∃ (answer : Answer) (m : Moment), disk.Mounted ∧ disk.store? ⟨1⟩ = some store ∧
      (∀ n, (store.volume.medium.block n).Layout) ∧ 0 < disk.pages ⟨1⟩ ∧
      Step ⟨[], Database.create 4 .fresh disk⟩ (.command (.insert ⟨1⟩ ⟨1⟩ [8] .tracked) answer) m ∧
      answer = .replied (.error (.foreignPage ⟨⟨1⟩, 0⟩ ⟨1⟩)) ∧
      firstRows disk = some [(⟨0⟩, [7])] ∧ firstRows m.db.pool.disk = some [] := by
  have hfree : Moment.isBusy ⟨[], Brimming.start⟩ (.insert ⟨1⟩ ⟨1⟩ [8] .tracked) = false := by
    decide +kernel
  have hrefusal : Crowded.refusal? (start (beginInsert ⟨1⟩ ⟨1⟩ [8] .tracked) Brimming.start).1 =
      some (.foreignPage ⟨⟨1⟩, 0⟩ ⟨1⟩) := by
    decide +kernel
  refine ⟨_, _, mounted_disk, rfl, fun n => ?_, by decide +kernel, Moment.step_insert hfree,
    congrArg answerOf (Crowded.eq_of_refusal? hrefusal), by decide +kernel, by decide +kernel⟩
  rw [store, Volume.mount, Medium.block_writeBlock]
  split
  · exact (Image.layout_imageAfter _).1
  · exact Image.layout_blank.1

end PagedHeap
