import PagedHeap.Proofs.Database.Durability
import PagedHeap.Proofs.Database.Scanning
import PagedHeap.Proofs.Database.Schedules

/-!
# Scans as snapshots

While a transaction scans a table without ending and without changing rows of the table itself, all
pages that the scan has passed stay as they were read.  So a scan that comes to its end has handed
out what is in the table at that moment, whatever others did in the meantime.
-/

namespace PagedHeap

open Database

/-- The transaction has neither ended nor changed rows of the table. -/
structure Quiet (t : TxnId) (table : TableId) (events : List Event) : Prop where
  unended : Unended t events
  unchanged : ∀ op, .changed t op ∈ events → op.rid.page.table ≠ table

/-- Where a scan is at a moment, by what was seen of it. -/
inductive Reading.Stands (id : CursorId) (t : TxnId) (table : TableId) (r : Reading) (m : Moment) :
    Prop
  | rests (hstanding : r.standing = .going) (hasleep : r.asleep = false) (cursor : Cursor)
      (hget : m.db.cursors.get? id = some cursor) (hreached : Reached t table r.rows cursor m.db)
      (hidle : ∀ c, m.Waits c → ¬ c.Scans id)
  | waits (hstanding : r.standing = .going) (hasleep : r.asleep = true) (c : Call)
      (hwaits : m.Waits c) (hreads : Reads id t table r.rows c m.db)
  | completes (hstanding : r.standing = .complete) (hscanned : Scanned id t table r.rows m.db)
      (hidle : ∀ c, m.Waits c → ¬ c.Scans id)
  | broken (hstanding : r.standing = .broken)

variable {id : CursorId} {t u : TxnId} {table : TableId} {r : Reading} {d d' : Database}
  {images : Nat → Image} {n : Nat} {cursor : Cursor} {rows : List (RecordId × Row)} {c : Call}
  {events new new' : List Event} {upkeep : Prop} {l l' : Ledger} {m m' m'' : Moment}
  {o : Occurrence} {command : Command} {occurrences : List Occurrence}
  {page : PageId}

theorem quiet_append :
    Quiet t table (events ++ new) ↔ Quiet t table events ∧ Quiet t table new := by
  constructor
  · rintro ⟨hunended, hunchanged⟩
    obtain ⟨h, h'⟩ := unended_append.mp hunended
    exact ⟨⟨h, fun op hop => hunchanged op (List.mem_append_left _ hop)⟩,
      h', fun op hop => hunchanged op (List.mem_append_right _ hop)⟩
  · rintro ⟨h, h'⟩
    refine ⟨unended_append.mpr ⟨h.unended, h'.unended⟩, fun op hop => ?_⟩
    exact (List.mem_append.mp hop).elim (h.unchanged op) (h'.unchanged op)

/-- The event ends the transaction, or is a change of the table by it. -/
def Event.Disturbs (t : TxnId) (table : TableId) : Event → Prop
  | .ended u _ => u = t
  | .changed u op => u = t ∧ op.rid.page.table = table
  | .fetched _ _ => False

instance : DecidablePred (Event.Disturbs t table)
  | .ended u _ => inferInstanceAs (Decidable (u = t))
  | .changed u op => inferInstanceAs (Decidable (u = t ∧ op.rid.page.table = table))
  | .fetched _ _ => inferInstanceAs (Decidable False)

theorem quiet_iff : Quiet t table events ↔ ∀ event ∈ events, ¬ event.Disturbs t table := by
  constructor
  · rintro ⟨hunended, hunchanged⟩ event hmem hdisturbs
    cases event with
    | ended u committed =>
      obtain rfl : u = t := hdisturbs
      exact hunended committed hmem
    | changed u op =>
      obtain ⟨rfl, htable⟩ : u = t ∧ op.rid.page.table = table := hdisturbs
      exact hunchanged op hmem htable
    | fetched => exact hdisturbs
  · intro h
    exact ⟨fun committed hmem => h _ hmem rfl, fun op hmem htable => h _ hmem ⟨rfl, htable⟩⟩

instance : Decidable (Quiet t table events) :=
  decidable_of_iff _ quiet_iff.symm

/-! ## What a step keeps -/

namespace Passes

/-- A page that a quiet transaction holds stays as it is. -/
theorem shows (h : Passes upkeep l m o l' m' new) (hquiet : Quiet t table new)
    (htable : page.table = table) {img : Image} (hshows : m.db.pool.Shows page img)
    (hheld : m.db.holds page t) : m'.db.pool.Shows page img ∧ m'.db.holds page t := by
  obtain ⟨img', hreplay, hshows', hheld'⟩ := h.effect.shows h.before.sound.wellFormed
    h.after.sound.wellFormed h.before.coherent hquiet.unended hshows hheld
  have hothers : ∀ op ∈ operationsIn t new, op.rid.page ≠ page := by
    intro op hop heq
    exact hquiet.unchanged op (mem_operationsIn.mp hop) (heq ▸ htable)
  rw [RowOp.replay?_of_forall_ne hothers] at hreplay
  obtain rfl := Option.some.inj hreplay
  exact ⟨hshows', hheld'⟩

theorem covered (h : Passes upkeep l m o l' m' new) (hquiet : Quiet t table new)
    (hcovered : Covered t table images n m.db) : Covered t table images n m'.db where
  held i hi := (h.shows hquiet rfl (hcovered.shown i hi) (hcovered.held i hi)).2
  shown i hi := (h.shows hquiet rfl (hcovered.shown i hi) (hcovered.held i hi)).1

theorem reached (h : Passes upkeep l m o l' m' new) (hquiet : Quiet t table new)
    (hreached : Reached t table rows cursor m.db) : Reached t table rows cursor m'.db := by
  obtain ⟨images, hcovered, hrows⟩ := hreached.covers
  exact ⟨hreached.txn_eq, hreached.table_eq, hreached.isOpen,
    Nat.le_trans hreached.next_le (h.effect.pages_le table), images, h.covered hquiet hcovered,
    hrows⟩

theorem reads (h : Passes upkeep l m o l' m' new) (hquiet : Quiet t table new)
    (hcursor : m'.db.cursors.get? id = m.db.cursors.get? id)
    (hreads : Reads id t table rows c m.db) : Reads id t table rows c m'.db := by
  obtain ⟨cursor, harvest, hc, hget, hpending, hnext, hlast, hreached⟩ := hreads
  exact ⟨cursor, harvest, hc, hcursor.trans hget, hpending,
    Nat.lt_of_lt_of_le hnext (h.effect.pages_le table), hlast, h.reached hquiet hreached⟩

end Passes

/-- A scan reads on as well when its call has been taken off the books. -/
theorem Reads.taken (h : Reads id t table rows c d) :
    Reads id t table rows c { d with calls := d.calls.erase c.txn } := by
  obtain ⟨cursor, harvest, hcall, hget, hpending, hnext, hlast, hreached⟩ := h
  obtain ⟨images, ⟨hheld, hshown⟩, hrows⟩ := hreached.covers
  exact ⟨cursor, harvest, hcall, hget, hpending, hnext, hlast, hreached.txn_eq,
    hreached.table_eq, hreached.isOpen, hreached.next_le, images, ⟨hheld, hshown⟩, hrows⟩

/-! ## What the observer notes -/

namespace Moment

/-- A waiting call scans for the transaction of its cursor. -/
theorem Waits.txn_of_scans (h : m.Waits c) (hm : m.Consistent l) (hscans : c.Scans id)
    (hget : m.db.cursors.get? id = some cursor) : c.txn = cursor.txn := by
  obtain ⟨harvest, herrand⟩ := hscans
  obtain ⟨c', hcall, -, hworks⟩ := hm.calls c.request h.request
  have hsame : c = c' := Option.some.inj (h.call.symm.trans hcall)
  subst hsame
  obtain ⟨cursor', hget', htxn, -⟩ := hworks.scan id harvest herrand
  obtain rfl := Option.some.inj (hget.symm.trans hget')
  exact htxn.symm

end Moment

theorem Command.onCursor_of_not_reset (h : command.reset? ≠ some id) (cursor : Option Cursor) :
    command.onCursor id cursor = cursor := by
  cases command with
  | openCursor id' _ _ => exact if_neg fun heq => h (congrArg some heq)
  | rewindCursor id' => exact if_neg fun heq => h (congrArg some heq)
  | closeCursor id' => exact if_neg fun heq => h (congrArg some heq)
  | _ => rfl

theorem Begins.reset?_eq {act : Act Database Progress} (h : Begins d command t act) :
    command.reset? = none := by
  cases h <;> rfl

/-- A command that scans with the cursor begins a call of the cursor's transaction. -/
theorem Begins.of_scanned {act : Act Database Progress} (h : Begins d command t act)
    (hscanned : command.scanned? = some id) (hget : d.cursors.get? id = some cursor) :
    t = cursor.txn ∧ ∃ harvest, harvest.rows = [] ∧ act = scanFrom id cursor harvest := by
  cases h with
  | fetch | insert | delete => cases hscanned
  | next id' cursor' hget' =>
    obtain rfl : id' = id := Option.some.inj hscanned
    obtain rfl := Option.some.inj (hget.symm.trans hget')
    exact ⟨rfl, .next, rfl, rfl⟩
  | rest id' cursor' hget' =>
    obtain rfl : id' = id := Option.some.inj hscanned
    obtain rfl := Option.some.inj (hget.symm.trans hget')
    exact ⟨rfl, .rest [], rfl, rfl⟩

/-- Somebody begins a call whenever a command scans with a cursor that is there. -/
theorem exists_begins (hscanned : command.scanned? = some id)
    (hget : d.cursors.get? id = some cursor) : ∃ act, Begins d command cursor.txn act := by
  cases command with
  | next id' =>
    obtain rfl : id' = id := Option.some.inj hscanned
    exact ⟨_, .next id' cursor hget⟩
  | rest id' =>
    obtain rfl : id' = id := Option.some.inj hscanned
    exact ⟨_, .rest id' cursor hget⟩
  | _ => cases hscanned

namespace Reading

variable {answer : Answer}

theorem observe_scanned (hscanned : command.scanned? = some id) (r : Reading) (answer : Answer) :
    r.observe id t (.command command answer) = r.answered answer :=
  if_pos hscanned

theorem observe_reset (hscanned : command.scanned? ≠ some id) (hreset : command.reset? = some id)
    (hanswer : answer ≠ .busy) (r : Reading) :
    r.observe id t (.command command answer) = r.spoil := by
  rw [observe, if_neg hscanned, if_pos ⟨hreset, Answer.isBusy_eq_false hanswer⟩]

theorem observe_other (hscanned : command.scanned? ≠ some id) (hreset : command.reset? ≠ some id)
    (r : Reading) (answer : Answer) : r.observe id t (.command command answer) = r := by
  rw [observe, if_neg hscanned, if_neg fun h => hreset h.1]

theorem observe_busy (r : Reading) (command : Command) :
    r.observe id t (.command command .busy) = r := by
  rw [observe]
  split
  · rfl
  · exact if_neg fun h => by cases h.2

/-- A reading that stands has a cursor to read with. -/
theorem Stands.exists_cursor (h : r.Stands id t table m) (hgoing : r.standing = .going) :
    ∃ cursor, m.db.cursors.get? id = some cursor ∧ cursor.txn = t := by
  cases h with
  | rests _ _ cursor hget hreached _ => exact ⟨cursor, hget, hreached.txn_eq⟩
  | waits _ _ c _ hreads =>
    obtain ⟨cursor, _, -, hget, -, -, -, hreached⟩ := hreads
    exact ⟨cursor, hget, hreached.txn_eq⟩
  | completes hstanding _ _ => cases hgoing.symm.trans hstanding
  | broken hstanding => cases hgoing.symm.trans hstanding

/-- Only the scanning transaction ever waits to read on. -/
theorem Stands.idle_of_awake (h : m.Consistent l) (hget : m.db.cursors.get? id = some cursor)
    (hawake : ∀ c, m.Waits c → c.txn ≠ cursor.txn) : ∀ c, m.Waits c → ¬ c.Scans id :=
  fun c hwaits hscans => hawake c hwaits (hwaits.txn_of_scans h hscans hget)

/-- The turn of another call leaves a scan where it is. -/
theorem Stands.aside (h : r.Stands id t table m) (hgoing : r.standing = .going)
    (hpasses : Passes upkeep l m o l' m' new) (hquiet : Quiet t table new)
    (hcursor : m'.db.cursors.get? id = m.db.cursors.get? id)
    (hidle : ∀ c, m'.Waits c → c.Scans id → m.Waits c)
    (hkept : r.asleep = true → ∀ c, m.Waits c → c.Scans id → m'.Waits c) :
    r.Stands id t table m' := by
  cases h with
  | rests hstanding hasleep cursor hget hreached hidle₀ =>
    exact .rests hstanding hasleep cursor (hcursor.trans hget) (hpasses.reached hquiet hreached)
      fun c hwaits hscans => hidle₀ c (hidle c hwaits hscans) hscans
  | waits hstanding hasleep c hwaits hreads =>
    have hscans : c.Scans id := by
      obtain ⟨cursor, harvest, rfl, -⟩ := hreads
      exact ⟨harvest, rfl⟩
    exact .waits hstanding hasleep c (hkept hasleep c hwaits hscans)
      (hpasses.reads hquiet hcursor hreads)
  | completes hstanding _ _ => cases hgoing.symm.trans hstanding
  | broken hstanding => exact .broken hstanding

/-- The turn of a call of the scan leaves the scan as the observer has it. -/
theorem Ends.stands {outcome : Option Outcome} (hends : r.Ends id t table outcome m.db)
    (hgoing : r.standing = .going) (hm : m.Consistent l)
    (hwaits : ∀ c, m.Waits c → c.txn = t → outcome = none)
    (hnone : outcome = none → ∀ c, c.txn = t → m.db.calls.get? t = some c → m.Waits c) :
    (r.after outcome).Stands id t table m := by
  have hidle : ∀ cursor, m.db.cursors.get? id = some cursor → cursor.txn = t → outcome ≠ none →
      ∀ c, m.Waits c → ¬ c.Scans id := by
    intro cursor hget htxn hsome c hc hscans
    exact hsome (hwaits c hc ((hc.txn_of_scans hm hscans hget).trans htxn))
  generalize hd : m.db = d at hends
  cases hends with
  | @sleeps c _ hcall hreads =>
    subst hd
    have htxn : c.txn = t := by
      obtain ⟨cursor, harvest, rfl, -⟩ := hreads
      rfl
    exact .waits hgoing rfl c (hnone rfl c htxn hcall) hreads
  | yields hget hreached =>
    subst hd
    exact .rests hgoing rfl _ hget hreached (hidle _ hget hreached.txn_eq (by simp))
  | completes hstanding hscanned =>
    subst hd
    obtain ⟨cursor, hget, htxn, -⟩ := hscanned.closed
    exact .completes hstanding hscanned (hidle cursor hget htxn (by simp))
  | breaks hstanding => exact .broken hstanding

/-- While its transaction is awake, a scan rests where it got to. -/
theorem Stands.reached_of_awake (h : r.Stands id t table m) (hgoing : r.standing = .going)
    (hget : m.db.cursors.get? id = some cursor)
    (hawake : ∀ r ∈ m.woken ++ m.db.locks.sleepers, r.txn ≠ t) :
    Reached t table r.rows cursor m.db := by
  cases h with
  | rests _ _ cursor' hget' hreached _ =>
    obtain rfl := Option.some.inj (hget.symm.trans hget')
    exact hreached
  | waits _ _ c hc hreads =>
    obtain ⟨_, _, rfl, -⟩ := hreads
    exact absurd rfl (hawake _ hc.request)
  | completes hstanding _ _ => cases hgoing.symm.trans hstanding
  | broken hstanding => cases hgoing.symm.trans hstanding

/-- The call that a scan waits with is the one to read on. -/
theorem Stands.reads_of_waits (h : r.Stands id t table m) (hgoing : r.standing = .going)
    (hc : m.Waits c) (hct : c.txn = t) (hscans : c.Scans id) :
    r.asleep = true ∧ Reads id t table r.rows c m.db := by
  cases h with
  | rests _ _ _ _ _ hidle => exact absurd hscans (hidle c hc)
  | waits _ hasleep c' hc' hreads =>
    have hsame : c' = c := by
      obtain ⟨_, _, rfl, -⟩ := hreads
      exact hc'.eq_of_txn hc hct.symm
    exact ⟨hasleep, hsame ▸ hreads⟩
  | completes hstanding _ _ => cases hgoing.symm.trans hstanding
  | broken hstanding => cases hgoing.symm.trans hstanding

/-- A transaction that waits with another call has no scan asleep. -/
theorem Stands.asleep_of_waits (h : r.Stands id t table m) (hgoing : r.standing = .going)
    (hc : m.Waits c) (hct : c.txn = t) (hscans : ¬ c.Scans id) : r.asleep = false := by
  cases h with
  | rests _ hasleep => exact hasleep
  | waits _ _ c' hc' hreads =>
    obtain ⟨_, harvest, rfl, -⟩ := hreads
    exact absurd (hc'.eq_of_txn hc hct.symm ▸ ⟨harvest, rfl⟩) hscans
  | completes hstanding _ _ => cases hgoing.symm.trans hstanding
  | broken hstanding => cases hgoing.symm.trans hstanding

/-- A call to scan begins where the scan rests. -/
theorem Stands.scanning (h : r.Stands id t table m) (hgoing : r.standing = .going)
    (hm : m.Consistent l) (hget : m.db.cursors.get? id = some cursor) (htxn : cursor.txn = t)
    {act : Act Database Progress} (hbegins : Begins m.db command u act)
    (hawake : ∀ r ∈ m.woken ++ m.db.locks.sleepers, r.txn ≠ u)
    (hscanned : command.scanned? = some id)
    (hm' : Moment.Consistent l' ⟨m.woken, (start act m.db).2⟩)
    (hroom : (start act m.db).2.pool.disk.pages table < pageBound) :
    (r.after (start act m.db).1).Stands id t table ⟨m.woken, (start act m.db).2⟩ := by
  have hwaits := hm.waits_begun hbegins hawake
  obtain ⟨hu, harvest, hrows, rfl⟩ := hbegins.of_scanned hscanned hget
  obtain rfl : u = t := hu.trans htxn
  have hreached : Reached u table (r.rows ++ harvest.rows) cursor m.db := by
    rw [hrows, List.append_nil]
    exact h.reached_of_awake hgoing hget hawake
  have hends := (scan_kept command.asked id u table r).start hm.sound hm.coherent hawake
    (hbegins.proceeds hm.coherent) (lands_scanFrom hreached)
  apply Ends.stands (hends hroom) hgoing hm'
  · intro c hc heq
    exact ((hwaits c).mp hc).elim (fun hother => absurd heq hother.1) fun hmine => hmine.2.1
  · exact fun hnone c heq hcall => (hwaits c).mpr (Or.inr ⟨heq, hnone, hcall⟩)

/-- A call that waited to read on reads on from there. -/
theorem Stands.readsOn (h : r.Stands id t table m) (hgoing : r.standing = .going)
    (hc : m.Waits c) (hct : c.txn = t) (hscans : c.Scans id)
    (hready : c.Ready (l.pending c.txn) (m.woken.erase c.request)
      { m.db with calls := m.db.calls.erase c.txn })
    {outcome : Option Outcome} {d' : Database}
    (hrun : run c { m.db with calls := m.db.calls.erase c.txn } = (outcome, d'))
    (hm' : Moment.Consistent l' ⟨m.woken.erase c.request, d'⟩)
    (hroom : d'.pool.disk.pages table < pageBound) :
    (r.after outcome).Stands id t table ⟨m.woken.erase c.request, d'⟩ := by
  have hwaits := hready.waits
  obtain ⟨-, hreads⟩ := h.reads_of_waits hgoing hc hct hscans
  have hends := (scan_kept (l.pending c.txn) id t table r).run hready hreads.taken
  rw [hrun] at hwaits hends
  apply Ends.stands (hends hroom) hgoing hm'
  · intro c' hc' heq
    exact ((hwaits c').mp hc').elim (fun hother => absurd (heq.trans hct.symm) hother.1)
      fun hmine => hmine.2.1
  · exact fun hnone c' heq hcall =>
      (hwaits c').mpr (Or.inr ⟨heq.trans hct.symm, hnone, hct.symm ▸ hcall⟩)

/-- The observer keeps up with a scan, step by step. -/
theorem Stands.step (h : r.Stands id t table m) (hgoing : r.standing = .going)
    (hpasses : Passes upkeep l m o l' m' new) (hquiet : Quiet t table new)
    (hroom : m'.db.pool.disk.pages table < pageBound) : (r.note id t o).Stands id t table m' := by
  obtain ⟨cursor, hget, htxn⟩ := h.exists_cursor hgoing
  have hm := hpasses.before
  rw [note_of_going hgoing]
  cases hpasses.stepped with
  | busy command =>
    rw [observe_busy]
    exact h
  | aside command answer hanswer hidle hwaits hcursors =>
    by_cases hscanned : command.scanned? = some id
    · obtain ⟨act, hbegins⟩ := exists_begins hscanned hget
      exact absurd hbegins (hidle _ _)
    by_cases hreset : command.reset? = some id
    · rw [observe_reset hscanned hreset hanswer]
      exact .broken rfl
    · rw [observe_other hscanned hreset]
      apply h.aside hgoing hpasses hquiet
      · rw [hcursors, Command.onCursor_of_not_reset hreset]
      · exact fun c hc _ => (hwaits c).mp hc
      · exact fun _ c hc _ => (hwaits c).mpr hc
  | begun command u act hbegins hawake =>
    by_cases hscanned : command.scanned? = some id
    · rw [observe_scanned hscanned, answered_answerOf]
      exact h.scanning hgoing hm hget htxn hbegins hawake hscanned hpasses.after hroom
    · have hwaits := hm.waits_begun hbegins hawake
      have hspared := hm.spared_begun hbegins hawake hscanned
      have hreset : command.reset? ≠ some id := by
        rw [hbegins.reset?_eq]
        exact fun heq => by cases heq
      rw [observe_other hscanned hreset]
      apply h.aside hgoing hpasses hquiet hspared.cursor
      · intro c hc hscans
        rcases (hwaits c).mp hc with hother | ⟨-, hnone, hcall⟩
        · exact hother.2
        · exact absurd hscans (hspared.calls hnone c hcall)
      · exact fun _ c hc _ => (hwaits c).mpr (Or.inl ⟨hawake _ hc.request, hc⟩)
  | resumed c hc hready =>
    by_cases hscans : c.Scans id
    · have hct : c.txn = t := (hc.txn_of_scans hm hscans hget).trans htxn
      obtain ⟨hasleep, -⟩ := h.reads_of_waits hgoing hc hct hscans
      have hobserve : r.observe id t (.resumed c.txn (run c
          { m.db with calls := m.db.calls.erase c.txn }).1) = r.after _ :=
        if_pos ⟨hct, hasleep⟩
      rw [hobserve]
      exact h.readsOn hgoing hc hct hscans hready rfl hpasses.after hroom
    · have hwaits := hready.waits
      have hspared := hready.spared hscans
      have hobserve : r.observe id t (.resumed c.txn (run c
          { m.db with calls := m.db.calls.erase c.txn }).1) = r := by
        refine if_neg fun ⟨hct, hasleep⟩ => ?_
        cases hasleep.symm.trans (h.asleep_of_waits hgoing hc hct hscans)
      rw [hobserve]
      apply h.aside hgoing hpasses hquiet hspared.cursor
      · intro c' hc' hscans'
        rcases (hwaits c').mp hc' with hother | ⟨-, hnone, hcall⟩
        · exact hother.2
        · exact absurd hscans' (hspared.calls hnone c' hcall)
      · intro _ c' hc' hscans'
        refine (hwaits c').mpr (Or.inl ⟨fun heq => ?_, hc'⟩)
        exact hscans (hc'.eq_of_txn hc heq ▸ hscans')

theorem going_of_note (h : (r.note id t o).standing = .going) : r.standing = .going := by
  by_contra hnot
  rw [note_of_not_going hnot] at h
  exact hnot h

/-- A cursor that was just opened stands in front of the first page. -/
theorem Stands.opened (hm : m.Consistent l)
    (hget : m.db.cursors.get? id = some (Cursor.start t table))
    (hawake : ∀ r ∈ m.woken ++ m.db.locks.sleepers, r.txn ≠ t) :
    blank.Stands id t table m := by
  have hreached : Reached t table [] (Cursor.start t table) m.db :=
    ⟨rfl, rfl, rfl, Nat.zero_le _, fun _ => Image.blank, .zero t table _ m.db, rfl⟩
  exact .rests rfl rfl _ hget hreached
    (Stands.idle_of_awake hm hget fun c hc => hawake _ hc.request)

/-- From the opening of a cursor on, the observer keeps up with the scan. -/
theorem stands_run (hrun : Run m occurrences m') (hm : m.Consistent l)
    (horderly : OrderlyRun upkeep occurrences) (hopened : blank.Stands id t table m) :
    m'.Consistent (occurrences.foldl Ledger.note l) ∧
      ∃ new, (occurrences.foldl Ledger.note l).events = l.events ++ new ∧
        (Quiet t table new → m'.db.pool.disk.pages table < pageBound →
          (of id t occurrences).standing = .going →
            (of id t occurrences).Stands id t table m') := by
  apply hrun.carries hm horderly fun _ _ _ => hopened
  intro occurrences new m₁ o m₂ new' l₁ l₂ hstands _ hpasses hquiet hroom hgoing
  rw [of_snoc] at hgoing ⊢
  obtain ⟨hquiet₁, hquiet₂⟩ := quiet_append.mp hquiet
  have hroom₁ := Nat.lt_of_le_of_lt (hpasses.effect.pages_le table) hroom
  have hgoing₁ := going_of_note hgoing
  exact (hstands hquiet₁ hroom₁ hgoing₁).step hgoing₁ hpasses hquiet₂ hroom

end Reading

/-! ## Closed scans -/

/-- The command opens the cursor, or opens it again. -/
def Command.Opens : Command → CursorId → Prop
  | .openCursor id _ _, id' => id = id'
  | .rewindCursor id, id' => id = id'
  | _, _ => False

/-- The cursor is closed, and no call reads on for it. -/
structure Moment.Shut (m : Moment) (id : CursorId) : Prop where
  closed : ∃ cursor, m.db.cursors.get? id = some cursor ∧ cursor.isOpen = false
  idle : ∀ c, m.Waits c → ¬ c.Scans id

/-- The command gets nothing out of the cursor. -/
def Occurrence.Fruitless (id : CursorId) : Occurrence → Prop
  | .command (.next id') answer =>
    id' = id → answer = .busy ∨ answer = .replied (.ok (.row none))
  | .command (.rest id') answer =>
    id' = id → answer = .busy ∨ answer = .replied (.ok (.rest [] none))
  | _ => True

theorem Command.onCursor_closed (h : ¬ command.Opens id) {cursor : Cursor}
    (hclosed : cursor.isOpen = false) :
    ∃ cursor', command.onCursor id (some cursor) = some cursor' ∧ cursor'.isOpen = false := by
  cases command with
  | openCursor id' _ _ => exact ⟨cursor, if_neg h, hclosed⟩
  | rewindCursor id' => exact ⟨cursor, if_neg h, hclosed⟩
  | closeCursor id' =>
    by_cases heq : id' = id
    · exact ⟨cursor.close, if_pos heq, rfl⟩
    · exact ⟨cursor, if_neg heq, hclosed⟩
  | _ => exact ⟨cursor, rfl, hclosed⟩

theorem scanFrom_closed {harvest : Harvest} (hclosed : cursor.isOpen = false) (d : Database) :
    (scanFrom id cursor harvest).on d = (.ok ((harvested harvest none).map .finished), d) := by
  unfold scanFrom
  simp only [hclosed, Bool.false_eq_true, if_false, Act.on_bind, Act.on_ofResult]
  cases harvested harvest none <;> rfl

/-- A scan with a cursor that is shut is over at once, and has no rows. -/
theorem Begins.shut {act : Act Database Progress} (h : Begins d command t act)
    (hscanned : command.scanned? = some id) (hget : d.cursors.get? id = some cursor)
    (hclosed : cursor.isOpen = false) :
    (start act d).2 = d ∧
      (Occurrence.command command (answerOf (start act d).1)).Fruitless id := by
  cases h with
  | fetch | insert | delete => cases hscanned
  | next id' cursor' hget' =>
    obtain rfl : id' = id := Option.some.inj hscanned
    obtain rfl := Option.some.inj (hget.symm.trans hget')
    rw [start, scanFrom_closed hclosed]
    exact ⟨rfl, fun _ => Or.inr rfl⟩
  | rest id' cursor' hget' =>
    obtain rfl : id' = id := Option.some.inj hscanned
    obtain rfl := Option.some.inj (hget.symm.trans hget')
    rw [start, scanFrom_closed hclosed]
    exact ⟨rfl, fun _ => Or.inr rfl⟩

/-- A cursor that is shut stays shut until it is opened again. -/
theorem Passes.shut (h : Passes upkeep l m o l' m' new) (hshut : m.Shut id)
    (hopens : ∀ c answer, o = .command c answer → ¬ c.Opens id) :
    m'.Shut id ∧ o.Fruitless id := by
  obtain ⟨⟨cursor, hget, hclosed⟩, hidle⟩ := hshut
  cases h.stepped with
  | busy command =>
    refine ⟨⟨⟨cursor, hget, hclosed⟩, hidle⟩, ?_⟩
    cases command with
    | next => exact fun _ => Or.inl rfl
    | rest => exact fun _ => Or.inl rfl
    | _ => trivial
  | aside command answer hanswer hnone hwaits hcursors =>
    obtain ⟨cursor', hcursor', hclosed'⟩ :=
      Command.onCursor_closed (hopens command answer rfl) hclosed
    refine ⟨⟨⟨cursor', ?_, hclosed'⟩, fun c hc => hidle c ((hwaits c).mp hc)⟩, ?_⟩
    · rw [hcursors, hget, hcursor']
    · -- A scan with a cursor that is there begins a call.
      cases command with
      | next id' =>
        rintro rfl
        exact absurd (Begins.next id' cursor hget) (hnone _ _)
      | rest id' =>
        rintro rfl
        exact absurd (Begins.rest id' cursor hget) (hnone _ _)
      | _ => trivial
  | begun command t act hbegins hawake =>
    by_cases hscanned : command.scanned? = some id
    · obtain ⟨hsame, hfruitless⟩ := hbegins.shut hscanned hget hclosed
      rw [hsame]
      exact ⟨⟨⟨cursor, hget, hclosed⟩, hidle⟩, hfruitless⟩
    · have hspared := h.before.spared_begun hbegins hawake hscanned
      refine ⟨⟨⟨cursor, hspared.cursor.trans hget, hclosed⟩, fun c hc => ?_⟩, ?_⟩
      · rcases (h.before.waits_begun hbegins hawake c).mp hc with ⟨-, hold⟩ | ⟨-, hsleeps, hcall⟩
        · exact hidle c hold
        · exact hspared.calls hsleeps c hcall
      · cases command with
        | next id' => exact fun heq => absurd (congrArg some heq) hscanned
        | rest id' => exact fun heq => absurd (congrArg some heq) hscanned
        | _ => trivial
  | resumed c hc hready =>
    have hspared := hready.spared (hidle c hc)
    refine ⟨⟨⟨cursor, hspared.cursor.trans hget, hclosed⟩, fun c' hc' => ?_⟩, trivial⟩
    rcases (hready.waits c').mp hc' with ⟨-, hold⟩ | ⟨-, hsleeps, hcall⟩
    · exact hidle c' hold
    · exact hspared.calls hsleeps c' hcall

theorem Run.shut (h : Run m occurrences m') (hm : m.Consistent l)
    (horderly : OrderlyRun upkeep occurrences) (hshut : m.Shut id)
    (hopens : ∀ c answer, .command c answer ∈ occurrences → ¬ c.Opens id) :
    ∀ o ∈ occurrences, o.Fruitless id := by
  obtain ⟨-, _, -, hall⟩ := h.carries hm horderly
    (P := fun occurrences _ m' =>
      (∀ c answer, .command c answer ∈ occurrences → ¬ c.Opens id) →
        m'.Shut id ∧ ∀ o ∈ occurrences, o.Fruitless id)
    (fun _ => ⟨hshut, fun o hmem => absurd hmem List.not_mem_nil⟩)
    fun occurrences _ m₁ o m₂ _ _ _ hkept _ hpasses hopens => by
      obtain ⟨hshut₁, hfruitless⟩ := hkept fun c answer hmem =>
        hopens c answer (List.mem_append_left _ hmem)
      obtain ⟨hshut₂, hlast⟩ := hpasses.shut hshut₁ fun c answer heq =>
        hopens c answer (List.mem_append_right _ (List.mem_singleton.mpr heq.symm))
      refine ⟨hshut₂, fun o' hmem => ?_⟩
      rcases List.mem_append.mp hmem with hmem | hmem
      · exact hfruitless o' hmem
      · exact List.mem_singleton.mp hmem ▸ hlast
  exact (hall hopens).2

/-! ## Changes that are still open -/

/-- Whoever has changed a page and not ended since has the page for itself. -/
def Claimed (events : List Event) (d : Database) : Prop :=
  ∀ before u op mid, events = before ++ .changed u op :: mid → Unended u mid → d.owns op.rid.page u

theorem Passes.claimed (h : Passes upkeep l m o l' m' new) (hclaimed : Claimed events m.db) :
    Claimed (events ++ new) m'.db := by
  intro before u op mid heq hunended
  rcases eq_append_cons heq with ⟨rest, hevents, rfl⟩ | ⟨pre, -, hnew⟩
  · obtain ⟨hrest, hunended'⟩ := unended_append.mp hunended
    exact h.owns hunended' (hclaimed before u op rest hevents hrest)
  · have hmem : .changed u op ∈ new := by simp [hnew]
    cases h.effect with
    | served t ops hmoves _ howns =>
      obtain ⟨op', hop, heq⟩ := List.mem_map.mp hmem
      obtain ⟨rfl, rfl⟩ := Event.changed.inj heq
      exact hmoves.owns_of_mem (h.before.coherent.mono howns) op' hop
    | fetched t page _ _ _ _ _ => simp at hmem
    | ended t committed _ _ _ => simp at hmem

/-! ## Snapshots -/

/-- The rows are those of all pages of the table, in the order of their records, while the
transaction holds the pages and nobody else has changes in them that may yet be undone. -/
structure Snapshot (t : TxnId) (table : TableId) (rows : List (RecordId × Row))
    (events : List Event) (d : Database) : Prop where
  shown : ∀ n < d.pool.disk.pageCount table,
    ∃ img, d.pool.content? ⟨table, n⟩ = some img ∧ img.Layout
  mem_iff : ∀ rid row, (rid, row) ∈ rows ↔
    rid.page.table = table ∧ rid.page.pageNo < d.pool.disk.pageCount table ∧
      ∃ img, d.pool.content? rid.page = some img ∧ img.row rid.slot = .ok (.ok row)
  ascending : rows.Pairwise fun a b => rank a.1 < rank b.1
  held : ∀ n < d.pool.disk.pageCount table, d.locks.holds t ⟨table, n⟩ .shared = true
  undisturbed : ∀ n < d.pool.disk.pageCount table, ∀ page u,
    d.pool.cachedPage? ⟨table, n⟩ = some page → page.dirtier = some u → u = t
  settled : ∀ n < d.pool.disk.pageCount table, ∀ before u op mid,
    events = before ++ .changed u op :: mid → op.rid.page = ⟨table, n⟩ → Unended u mid → u = t

theorem Scanned.snapshot (h : Scanned id t table rows m.db) (hm : m.Consistent l)
    (htidy : m.db.pool.Tidy) (hroom : m.db.pool.disk.pages table < pageBound)
    (hclaimed : Claimed events m.db) : Snapshot t table rows events m.db := by
  obtain ⟨images, hcovered, rfl⟩ := h.covers
  have hcount := Disk.toNat_pageCount hroom
  have hcontent : ∀ i < m.db.pool.disk.pages table,
      m.db.pool.content? (table.page i) = some (images i) := by
    intro i hi
    rcases hcovered.shown i hi with hcontent | ⟨-, -, hfull⟩
    · exact hcontent
    · exact absurd hfull (Nat.not_le_of_lt hroom)
  have hlayout : ∀ i < m.db.pool.disk.pages table, (images i).Layout := fun i hi =>
    htidy.content (hcontent i hi)
  have hlt : ∀ n, n < m.db.pool.disk.pageCount table → n.toNat < m.db.pool.disk.pages table :=
    fun n hn => hcount ▸ UInt32.lt_iff_toNat_lt.mp hn
  have hheld : ∀ n, n < m.db.pool.disk.pageCount table → m.db.holds ⟨table, n⟩ t := by
    intro n hn
    have hn' := hcovered.held n.toNat (hlt n hn)
    rwa [TableId.page_toNat] at hn'
  have hsole : ∀ n, n < m.db.pool.disk.pageCount table → ∀ u, m.db.owns ⟨table, n⟩ u → u = t :=
    fun n hn u howns => ((hm.sound.wellFormed _).eq_of_owns howns (hheld n hn)).symm
  refine ⟨fun n hn => ?_, fun rid row => ?_, recordsOf_ascending hlayout (Nat.le_of_lt hroom),
    fun n hn => ?_, fun n hn page u hcached hdirty => ?_,
    fun n hn before u op mid heq hpage hunended => ?_⟩
  · refine ⟨images n.toNat, ?_, hlayout _ (hlt n hn)⟩
    rw [← TableId.page_toNat]
    exact hcontent _ (hlt n hn)
  · rw [mem_recordsOf hlayout (Nat.le_of_lt hroom)]
    refine and_congr_right fun htable => ?_
    rw [UInt32.lt_iff_toNat_lt, hcount]
    refine and_congr_right fun hn => ?_
    have hpage : rid.page = table.page rid.page.pageNo.toNat := htable ▸ rid.page.eq_page
    have hshown := hcontent _ hn
    rw [← hpage] at hshown
    constructor
    · exact fun hrow => ⟨_, hshown, hrow⟩
    · rintro ⟨img, himg, hrow⟩
      obtain rfl := Option.some.inj (hshown.symm.trans himg)
      exact hrow
  · rw [LockTable.holds, Grant.satisfies_iff]
    exact ⟨hheld n hn, Grant.covers_shared _⟩
  · exact hsole n hn u (hm.coherent.owned _ page u hcached hdirty)
  · exact hsole n hn u (hpage ▸ hclaimed before u op mid heq hunended)

/-- The command opens the cursor for a transaction on a table. -/
inductive Command.OpensFor (d : Database) (id : CursorId) (t : TxnId) (table : TableId) :
    Command → Prop
  | start : OpensFor d id t table (.openCursor id t table)
  | rewind (cursor : Cursor) (hget : d.cursors.get? id = some cursor) (htxn : cursor.txn = t)
      (htable : cursor.table = table) : OpensFor d id t table (.rewindCursor id)

theorem Command.OpensFor.orderly (h : command.OpensFor d id t table) : command.IsOrderly := by
  cases h <;> trivial

/-- After its opening a scan stands in front of the first page. -/
theorem Step.opened {result : Except Error Unit}
    (h : Step m (.command command (.done result)) m')
    (hopens : command.OpensFor m.db id t table) (hm' : m'.Consistent l) :
    Reading.blank.Stands id t table m' := by
  generalize ho : Occurrence.command command (.done result) = o at h
  cases h with
  | plain c hfree hplain =>
    obtain ⟨rfl, -⟩ := Occurrence.command.inj ho
    cases hopens with
    | start =>
      exact .opened hm' (SortedMap.get?_insert_self _ _ _)
        (LockTable.isAsleep_eq_false.mp (Bool.or_eq_false_iff.mp hfree).1)
    | rewind cursor hget htxn htable =>
      subst htxn
      subst htable
      have hupdated : m.db.updateCursor id Cursor.rewind = m.db.setCursor id cursor.rewind := by
        rw [updateCursor, hget]
      refine .opened hm' ?_ ?_
      · change (m.db.updateCursor id Cursor.rewind).cursors.get? id = _
        rw [hupdated]
        exact SortedMap.get?_insert_self _ _ _
      · change ∀ r ∈ m.woken ++ (m.db.updateCursor id Cursor.rewind).locks.sleepers, _
        rw [hupdated]
        exact Moment.awake_of_rests hfree cursor hget
  | busy c hbusy => cases ho
  | commit t result d hfree hsettle =>
    obtain ⟨rfl, -⟩ := Occurrence.command.inj ho
    cases hopens
  | commitFault => cases ho
  | abort t hfree =>
    obtain ⟨rfl, -⟩ := Occurrence.command.inj ho
    cases hopens
  | release t p hfree =>
    obtain ⟨rfl, -⟩ := Occurrence.command.inj ho
    cases hopens
  | resume => cases ho

/-- Opening a cursor is no event. -/
theorem Ledger.note_opening (h : command.OpensFor d id t table) (l : Ledger) (answer : Answer) :
    l.note (.command command answer) = l := by
  cases h <;> rfl

/-- The opening of a cursor is a step like any other, and leaves the ledger alone. -/
theorem Step.passes_opening {result : Except Error Unit}
    (h : Step m (.command command (.done result)) m') (hm : m.Consistent l)
    (hopens : command.OpensFor m.db id t table) :
    m'.Consistent l ∧ Reading.blank.Stands id t table m' := by
  obtain ⟨new, hpasses⟩ : ∃ new, Passes True l m _ _ m' new := h.passes hm fun c answer heq => by
    obtain rfl := (Occurrence.command.inj heq).1
    exact ⟨hopens.orderly, fun _ => trivial⟩
  have hafter := hpasses.after
  rw [Ledger.note_opening hopens] at hafter
  exact ⟨hafter, h.opened hopens hafter⟩

/-- In a run over tables that start empty every change that is not ended yet is claimed. -/
theorem Run.claimed {capacity : Nat} {journal : Journal} {tables : List TableId}
    (h : Run ⟨[], Database.create capacity journal (Disk.ofTables tables)⟩ occurrences m)
    (horderly : OrderlyRun upkeep occurrences) :
    m.Consistent (Ledger.of occurrences) ∧ m.db.pool.Tidy ∧
      Claimed (Ledger.of occurrences).events m.db := by
  have hfresh := Disk.fresh_ofTables tables
  have htidy : (Database.create capacity journal (Disk.ofTables tables)).pool.Tidy := by
    refine ⟨fun id page hcached => ?_, fun id img himage => ?_⟩
    · cases hcached
    · have hnone : (Disk.ofTables tables).image? id = some img := himage
      rw [hfresh.image?_eq] at hnone
      cases hnone
  have hclaimed : Claimed [] (Database.create capacity journal (Disk.ofTables tables)) :=
    fun before u op mid heq =>
      absurd heq.symm (List.append_ne_nil_of_right_ne_nil _ (List.cons_ne_nil _ _))
  obtain ⟨hm, new, hevents, hkept⟩ :=
    h.carries (P := fun _ new m => m.db.pool.Tidy ∧ Claimed new m.db)
      (consistent_create capacity journal hfresh.mounted) horderly ⟨htidy, hclaimed⟩
      fun occurrences new m₁ o m₂ new' l₁ l₂ hkept _ hpasses =>
        ⟨hpasses.effect.tidy hpasses.before.coherent hkept.1, hpasses.claimed hkept.2⟩
  obtain rfl : (Ledger.of occurrences).events = new := hevents.trans (List.nil_append new)
  exact ⟨hm, hkept⟩

/-- Take any run over tables that start empty in which a cursor is opened, or opened again, and any
steps of other transactions between the calls that read from it.  If the scan comes to its end, and
its transaction has neither ended nor changed rows of the table meanwhile, then it has handed out a
snapshot of the table as it is at that moment.  The cursor is closed then, and there is nothing to
be got out of it until it is opened again. -/
theorem completed_scan_is_snapshot {capacity : Nat} {journal : Journal} {tables : List TableId}
    {before during : List Occurrence} {opening : Command} {m₀ m₁ : Moment}
    (hbefore : Run ⟨[], Database.create capacity journal (Disk.ofTables tables)⟩ before m₀)
    (hopens : opening.OpensFor m₀.db id t table)
    (hopening : Step m₀ (.command opening (.done (.ok ()))) m₁)
    (hduring : Run m₁ during m) (hlast : Step m o m')
    (horderly : OrderlyRun True (before ++ .command opening (.done (.ok ())) :: (during ++ [o])))
    (hgoing : (Reading.of id t during).standing = .going)
    (hcomplete : (Reading.of id t (during ++ [o])).standing = .complete)
    (hevents : (Ledger.of (before ++ .command opening (.done (.ok ())) :: (during ++ [o]))).events =
      (Ledger.of before).events ++ new)
    (hquiet : Quiet t table new) (hroom : m'.db.pool.disk.pages table < pageBound) :
    Snapshot t table (Reading.of id t (during ++ [o])).rows
        (Ledger.of (before ++ .command opening (.done (.ok ())) :: (during ++ [o]))).events m'.db ∧
      (∃ cursor, m'.db.cursors.get? id = some cursor ∧ cursor.isOpen = false) ∧
      ∀ later m'', Run m' later m'' → OrderlyRun True later →
        (∀ c answer, .command c answer ∈ later → ¬ c.Opens id) → ∀ o ∈ later, o.Fruitless id := by
  obtain ⟨horderly₀, horderly₁⟩ := orderlyRun_append.mp horderly
  obtain ⟨-, horderly₁⟩ := orderlyRun_cons.mp horderly₁
  obtain ⟨horderly₁, horderly₂⟩ := orderlyRun_append.mp horderly₁
  have hledger : Ledger.of (before ++ .command opening (.done (.ok ())) :: (during ++ [o])) =
      ((during.foldl Ledger.note (Ledger.of before)).note o) := by
    rw [Ledger.of, List.foldl_append, List.foldl_cons, List.foldl_append]
    change ((during.foldl Ledger.note ((Ledger.of before).note _)).note o) = _
    rw [Ledger.note_opening hopens]
  -- Up to the step before the last one the scan goes on.
  obtain ⟨hm₀, -⟩ := hbefore.claimed horderly₀
  obtain ⟨hm₁, hopened⟩ := hopening.passes_opening hm₀ hopens
  obtain ⟨hm, new₁, hevents₁, hstands⟩ := Reading.stands_run hduring hm₁ horderly₁ hopened
  obtain ⟨new₂, hpasses⟩ := hlast.passes hm (orderlyRun_cons.mp horderly₂).1
  have hnew : new = new₁ ++ new₂ := by
    rw [hledger, hpasses.events, hevents₁, List.append_assoc] at hevents
    exact (List.append_cancel_left hevents).symm
  obtain ⟨hquiet₁, hquiet₂⟩ := quiet_append.mp (hnew ▸ hquiet)
  -- The last step comes to the end of the table.
  have hended : (Reading.of id t (during ++ [o])).Stands id t table m' := by
    rw [Reading.of_snoc]
    have hroom₁ := Nat.lt_of_le_of_lt (hpasses.effect.pages_le table) hroom
    exact (hstands hquiet₁ hroom₁ hgoing).step hgoing hpasses hquiet₂ hroom
  have hfinished : Scanned id t table (Reading.of id t (during ++ [o])).rows m'.db ∧
      ∀ c, m'.Waits c → ¬ c.Scans id := by
    cases hended with
    | completes _ hscanned hidle => exact ⟨hscanned, hidle⟩
    | rests hstanding => cases hstanding.symm.trans hcomplete
    | waits hstanding => cases hstanding.symm.trans hcomplete
    | broken hstanding => cases hstanding.symm.trans hcomplete
  obtain ⟨hscanned, hidle⟩ := hfinished
  have hrun : Run ⟨[], Database.create capacity journal (Disk.ofTables tables)⟩
      (before ++ .command opening (.done (.ok ())) :: (during ++ [o])) m' :=
    hbefore.trans ((Run.single hopening).trans (hduring.trans (Run.single hlast)))
  obtain ⟨hm', htidy', hclaimed⟩ := hrun.claimed horderly
  obtain ⟨cursor, hget, -, hclosed⟩ := hscanned.closed
  refine ⟨hscanned.snapshot hm' htidy' hroom hclaimed, ⟨cursor, hget, hclosed⟩, ?_⟩
  intro later m'' hlater horderly₃ hshut
  exact hlater.shut hm' horderly₃ ⟨⟨cursor, hget, hclosed⟩, hidle⟩ hshut

namespace Contested

/-- A table with one row. -/
def filled : List Occurrence × Moment :=
  Moment.obeying ⟨[], Database.create 1 .fresh (Disk.ofTables [⟨1⟩])⟩
    [.insert ⟨3⟩ ⟨1⟩ [7] .tracked, .commit ⟨3⟩]

def opened : Moment :=
  ⟨filled.2.woken, filled.2.db.setCursor ⟨0⟩ (Cursor.start ⟨1⟩ ⟨1⟩)⟩

/-- The row is read, and somebody else falls asleep over adding another one. -/
def scanning : List Occurrence × Moment :=
  opened.obeying [.next ⟨0⟩, .insert ⟨2⟩ ⟨1⟩ [8] .tracked]

/-- The scan comes to its end. -/
def ended : Answer × Moment :=
  scanning.2.commanded (.next ⟨0⟩)

/-- The whole run. -/
def story : List Occurrence :=
  filled.1 ++ .command (.openCursor ⟨0⟩ ⟨1⟩ ⟨1⟩) (.done (.ok ())) ::
    (scanning.1 ++ [.command (.next ⟨0⟩) ended.1])

end Contested

/-- The scan ends with the one row, for the other one has to wait. -/
theorem completed_scan_is_snapshot_contested :
    Run ⟨[], Database.create 1 .fresh (Disk.ofTables [⟨1⟩])⟩ Contested.story
        Contested.ended.2 ∧
      Contested.ended.2.db.locks.isAsleep ⟨2⟩ = true ∧
      Snapshot ⟨1⟩ ⟨1⟩ [(⟨⟨⟨1⟩, 0⟩, ⟨0⟩⟩, [7])] (Ledger.of Contested.story).events
        Contested.ended.2.db := by
  have hfilled : Run ⟨[], Database.create 1 .fresh (Disk.ofTables [⟨1⟩])⟩ Contested.filled.1
      Contested.filled.2 := Moment.run_obeying _ _
  have hopening : Step Contested.filled.2 (.command (.openCursor ⟨0⟩ ⟨1⟩ ⟨1⟩) (.done (.ok ())))
      Contested.opened := .plain _ (by decide +kernel) rfl
  have hscanning : Run Contested.opened Contested.scanning.1 Contested.scanning.2 :=
    Moment.run_obeying _ _
  have hended : Step Contested.scanning.2 (.command (.next ⟨0⟩) Contested.ended.1)
      Contested.ended.2 := Moment.step_commanded _ _
  have horderly : OrderlyRun True Contested.story := by
    refine orderlyRun_append.mpr ⟨Moment.orderlyRun_obeying (by simp [Command.IsOrderly]) _,
      orderlyRun_cons.mpr ⟨fun c answer heq => ?_, orderlyRun_append.mpr
        ⟨Moment.orderlyRun_obeying (by simp [Command.IsOrderly]) _, fun c answer hmem => ?_⟩⟩⟩
    · obtain rfl := (Occurrence.command.inj heq).1
      exact ⟨trivial, fun _ => trivial⟩
    · obtain rfl := (Occurrence.command.inj (List.mem_singleton.mp hmem)).1
      exact ⟨trivial, fun _ => trivial⟩
  have hreading : Reading.of ⟨0⟩ ⟨1⟩
      (Contested.scanning.1 ++ [.command (.next ⟨0⟩) Contested.ended.1]) =
        ⟨[(⟨⟨⟨1⟩, 0⟩, ⟨0⟩⟩, [7])], .complete, false⟩ := by
    decide +kernel
  have hrest : Run Contested.filled.2 _ Contested.ended.2 :=
    (Run.single hopening).trans (hscanning.trans (Run.single hended))
  obtain ⟨horderly₀, horderly₁⟩ := orderlyRun_append.mp horderly
  obtain ⟨-, new, hevents, -⟩ := hrest.carries (P := fun _ _ _ => True)
    (hfilled.claimed horderly₀).1 horderly₁ trivial fun _ _ _ _ _ _ _ _ _ _ _ => trivial
  rw [Ledger.of, ← List.foldl_append] at hevents
  have hquiet : Quiet ⟨1⟩ ⟨1⟩ ((Ledger.of Contested.filled.1).events ++ new) := by
    rw [Ledger.of, ← hevents]
    decide +kernel
  obtain ⟨hsnapshot, -⟩ := completed_scan_is_snapshot hfilled .start hopening hscanning hended
    horderly (by decide +kernel) (by rw [hreading]) hevents (quiet_append.mp hquiet).2
    (by decide +kernel)
  rw [hreading] at hsnapshot
  refine ⟨hfilled.trans hrest, ?_, hsnapshot⟩
  decide +kernel

end PagedHeap
