import PagedHeap.Proofs.Database.Schedules
import PagedHeap.Proofs.Database.Twins
import PagedHeap.Proofs.Lock.Waking

/-!
# The cache cannot be told from outside

Two runs over the same files are asked the same, with room for any two numbers of pages.  As long
as neither cache is full, both are told the same after every step: the same transactions sleep, the
same rows are found, and the same pages are logged and written in the same order.
-/

namespace PagedHeap

open Database

/-! ## What is told -/

namespace Occurrence

def answer : Occurrence → Answer
  | .command _ answer => answer
  | .resumed _ outcome => answerOf outcome

/-- The same was asked, and the answers tell the same. -/
structure Alike (o o' : Occurrence) : Prop where
  turn : o'.turn = o.turn
  answer : o.answer.Alike o'.answer

def isExhausted (o : Occurrence) : Bool :=
  o.answer.isExhausted

end Occurrence

/-- Pages are reached through the pool, and neither devices nor files are touched from outside. -/
def Command.IsOrdinary : Command → Prop
  | .fetch _ _ _ _ => True
  | .insert _ _ _ route => route = .tracked
  | .delete _ _ _ route => route = .tracked
  | .commit _ => True
  | .abort _ => True
  | .release _ _ => True
  | .flushAll => True
  | .flushPage _ => True
  | .flushOwned _ => True
  | .discard _ => True
  | .openCursor _ _ _ => True
  | .rewindCursor _ => True
  | .closeCursor _ => True
  | .next _ => True
  | .rest _ => True
  | .dropHandle _ => True
  | _ => False

variable {t : TxnId} {c : Command} {d d' e : Database} {r : LockRequest}
  {woken : List LockRequest} {m m' n n' : Moment} {o o' : Occurrence} {act : Act Database Progress}

theorem Command.IsOrdinary.isTame (h : c.IsOrdinary) : c.IsTame := by
  cases c with
  | edit => exact h
  | implant => exact h
  | setDetours => exact h
  | resizeFile => exact h
  | patchFile => exact h
  | reopen => exact h
  | _ => exact trivial

/-! ## Who waits -/

/-- The call of the request waits, for some command or for none. -/
def Database.Waits (d : Database) (r : LockRequest) : Prop :=
  ∃ c, d.calls.get? r.txn = some c ∧ c.request = r ∧ ∃ cmd, c.WorksFor cmd d

theorem Database.Waits.mono (h : d.Waits r) (hcalls : d'.calls.get? r.txn = d.calls.get? r.txn)
    (hkept : CursorsKept d d') : d'.Waits r := by
  obtain ⟨c, hget, hrequest, cmd, hworks⟩ := h
  exact ⟨c, hcalls.trans hget, hrequest, cmd, hworks.mono hkept⟩

structure Moment.Waiting (m : Moment) : Prop where
  sound : LockTable.Sound m.woken m.db.locks
  calls : ∀ r ∈ m.woken ++ m.db.locks.sleepers, m.db.Waits r

namespace Moment.Waiting

theorem withPool (hm : m.Waiting) (p : Pool) : Moment.Waiting ⟨m.woken, m.db.withPool p⟩ :=
  ⟨hm.sound, fun r hr => (hm.calls r hr).mono rfl (CursorsKept.refl m.db)⟩

/-- A turn leaves only its own transaction asleep. -/
theorem turned (hcalls : ∀ r ∈ woken ++ d.locks.sleepers, r.txn ≠ t ∧ d.Waits r)
    (h : Turned t woken d d') : Moment.Waiting ⟨woken, d'⟩ := by
  have hold : ∀ r ∈ woken ++ d.locks.sleepers, d'.Waits r := fun r hr =>
    (hcalls r hr).2.mono (h.calls r.txn (hcalls r hr).1) h.cursors
  refine ⟨h.sound, fun r hr => ?_⟩
  rcases h.sleepers with hsame | ⟨c, hsleepers, rfl, hget, hworks⟩
  · exact hold r (hsame ▸ hr)
  · have hr' : r ∈ woken ++ d'.locks.sleepers := hr
    rw [hsleepers, ← List.append_assoc] at hr'
    rcases List.mem_append.mp hr' with hr' | hr'
    · exact hold r hr'
    · obtain rfl := List.mem_singleton.mp hr'
      exact ⟨c, hget, rfl, hworks⟩

/-- Changes of cursors whose calls do not wait. -/
theorem withCursors (hm : m.Waiting) {cursors : SortedMap CursorId Cursor}
    (hkept : ∀ id cursor, m.db.cursors.get? id = some cursor →
      (∃ r ∈ m.woken ++ m.db.locks.sleepers, r.txn = cursor.txn) →
        cursors.get? id = some cursor) :
    Moment.Waiting ⟨m.woken, { m.db with cursors }⟩ := by
  refine ⟨hm.sound, fun r hr => ?_⟩
  obtain ⟨c, hget, rfl, cmd, hworks⟩ := hm.calls r hr
  exact ⟨c, hget, rfl, cmd, hworks.of_own_cursors fun id cursor hcursor htxn =>
    hkept id cursor hcursor ⟨c.request, hr, htxn.symm⟩⟩

/-- The cursor may be changed by its own transaction. -/
theorem setCursor (hm : m.Waiting) {id : CursorId} (cursor : Cursor)
    (hfree : ∀ old, m.db.cursors.get? id = some old →
      ∀ r ∈ m.woken ++ m.db.locks.sleepers, r.txn ≠ old.txn) :
    Moment.Waiting ⟨m.woken, m.db.setCursor id cursor⟩ :=
  hm.withCursors fun _ _ => Consistent.cursor_kept cursor hfree

theorem updateCursor (hm : m.Waiting) {id : CursorId} (f : Cursor → Cursor)
    (hfree : ∀ old, m.db.cursors.get? id = some old →
      ∀ r ∈ m.woken ++ m.db.locks.sleepers, r.txn ≠ old.txn) :
    Moment.Waiting ⟨m.woken, m.db.updateCursor id f⟩ := by
  rw [Database.updateCursor]
  split
  case h_1 => exact hm.setCursor _ hfree
  case h_2 => exact hm

/-- Locks that are released wake some of the calls that slept. -/
theorem released (hm : m.Waiting) {freed : List LockRequest} {l : LockTable}
    (hsound : LockTable.Sound (m.woken ++ freed) l)
    (hmem : ∀ r, r ∈ freed ∨ r ∈ l.sleepers ↔ r ∈ m.db.locks.sleepers) :
    Moment.Waiting ⟨m.woken ++ freed, { m.db with locks := l }⟩ := by
  refine ⟨hsound, fun r hr => ?_⟩
  exact (hm.calls r (LockTable.mem_of_released hmem hr)).mono rfl (CursorsKept.refl m.db)

theorem letOff (hm : m.Waiting) (hawake : m.db.locks.isAsleep t = false) : (m.letOff t).Waiting :=
  hm.released (hm.sound.releaseAll hawake) fun _ => LockTable.mem_releaseAll m.db.locks t

/-- The calls that wait while a transaction has its turn. -/
theorem others (hm : m.Waiting) (hawake : ∀ r ∈ m.woken ++ m.db.locks.sleepers, r.txn ≠ t) :
    ∀ r ∈ m.woken ++ m.db.locks.sleepers, r.txn ≠ t ∧ m.db.Waits r :=
  fun r hr => ⟨hawake r hr, hm.calls r hr⟩

end Moment.Waiting

/-! ## Two moments -/

/-- Two moments that differ in the caching of pages only. -/
structure Moment.Twins (m n : Moment) : Prop where
  woken : n.woken = m.woken
  db : m.db.Twins n.db
  waiting : m.Waiting

/-- Answers that tell the same, and moments that differ in caching only. -/
structure Moment.Abreast (x y : Answer × Moment) : Prop where
  answer : x.1.Alike y.1
  twins : x.2.Twins y.2

theorem Database.isBusy_congr (hlocks : e.locks = d.locks) (hcursors : e.cursors = d.cursors)
    (c : Command) : e.isBusy c = d.isBusy c := by
  cases c <;> simp only [Database.isBusy, Database.isAsleep, Database.rests, hlocks, hcursors]

namespace Moment.Twins

theorem isBusy (h : m.Twins n) (c : Command) : n.isBusy c = m.isBusy c := by
  rw [Moment.isBusy, Moment.isBusy, h.woken, h.db.locks]
  apply Database.isBusy_congr
  · rfl
  · exact h.db.cursors

/-! ## Commands in both -/

theorem withPools (h : m.Twins n) {p q : Pool} (hpools : p.Twins q) :
    Moment.Twins ⟨m.woken, m.db.withPool p⟩ ⟨n.woken, n.db.withPool q⟩ :=
  ⟨h.woken, h.db.withPools hpools, h.waiting.withPool p⟩

/-- A command whose call has its turn at once. -/
theorem call (h : m.Twins n) (hawake : ∀ r ∈ m.woken ++ m.db.locks.sleepers, r.txn ≠ t)
    (hact : Act.Paired (Serving m.db) (Goes t fun _ _ => True) (act.on m.db) (act.on n.db))
    (hroom : (m.db.call act).2.pool.disk.Roomy)
    (hfits : ¬ (m.db.call act).1.answer.isExhausted)
    (hfits' : ¬ (n.db.call act).1.answer.isExhausted) :
    Moment.Abreast ((m.db.call act).1.answer, ⟨m.woken, (m.db.call act).2⟩)
      ((n.db.call act).1.answer, ⟨n.woken, (n.db.call act).2⟩) := by
  obtain ⟨hanswer, hdb⟩ := answer_call m.db act
  obtain ⟨hanswer', hdb'⟩ := answer_call n.db act
  rw [hdb] at hroom
  rw [hanswer] at hfits
  rw [hanswer'] at hfits'
  rw [hanswer, hdb, hanswer', hdb']
  have hturns := turns_start h.waiting.sound hawake hact hroom hfits hfits'
  exact ⟨hturns.answer, h.woken, hturns.twins,
    .turned (h.waiting.others hawake) hturns.turned⟩

theorem scan (h : m.Twins n) {cursor : CursorId} {harvest : Harvest}
    (hfree : ∀ old, m.db.cursors.get? cursor = some old →
      ∀ r ∈ m.woken ++ m.db.locks.sleepers, r.txn ≠ old.txn)
    (hroom : (m.db.scan cursor harvest).2.pool.disk.Roomy)
    (hfits : ¬ (m.db.scan cursor harvest).1.answer.isExhausted)
    (hfits' : ¬ (n.db.scan cursor harvest).1.answer.isExhausted) :
    Moment.Abreast ((m.db.scan cursor harvest).1.answer, ⟨m.woken, (m.db.scan cursor harvest).2⟩)
      ((n.db.scan cursor harvest).1.answer, ⟨n.woken, (n.db.scan cursor harvest).2⟩) := by
  rw [Database.scan] at hroom hfits hfits'
  rw [Database.scan, Database.scan]
  rw [h.db.cursors] at hfits' ⊢
  cases hget : m.db.cursors.get? cursor with
  | some old =>
    rw [hget] at hroom hfits hfits'
    exact h.call (hfree old hget) (paired_scanFrom h.db.serving hget (.refl old) rfl harvest
      fun _ _ _ => trivial) hroom hfits hfits'
  | none =>
    have hend : ∀ d : Database, (d.call do
        return .finished (← Act.ofResult (harvested harvest none))) =
          ({ answer := .replied (harvested harvest none) }, d) := by
      intro d
      rw [Database.call, start]
      simp only [Act.on_bind, Act.on_ofResult]
      cases harvested harvest none <;> rfl
    simp only [hend]
    exact ⟨.refl _, h⟩

theorem atOnce (h : m.Twins n) {act : Act Pool Unit}
    (hact : Act.Agree Pool.Twins (act.on m.db.pool) (act.on n.db.pool)) :
    Moment.Abreast ((m.db.atOnce act).1.answer, ⟨m.woken, (m.db.atOnce act).2⟩)
      ((n.db.atOnce act).1.answer, ⟨n.woken, (n.db.atOnce act).2⟩) := by
  rw [Database.atOnce, Database.atOnce, on_onPool, on_onPool, hact.result]
  have htwins := h.withPools hact.states
  cases (act.on m.db.pool).1 with
  | error fault => exact ⟨.refl _, htwins⟩
  | ok result => exact ⟨.refl _, htwins⟩

theorem setCursor (h : m.Twins n) {id : CursorId} (cursor : Cursor)
    (hfree : ∀ old, m.db.cursors.get? id = some old →
      ∀ r ∈ m.woken ++ m.db.locks.sleepers, r.txn ≠ old.txn) :
    Moment.Twins ⟨m.woken, m.db.setCursor id cursor⟩ ⟨n.woken, n.db.setCursor id cursor⟩ :=
  ⟨h.woken, h.db.setCursor id cursor, h.waiting.setCursor cursor hfree⟩

theorem updateCursor (h : m.Twins n) {id : CursorId} (f : Cursor → Cursor)
    (hfree : ∀ old, m.db.cursors.get? id = some old →
      ∀ r ∈ m.woken ++ m.db.locks.sleepers, r.txn ≠ old.txn) :
    Moment.Twins ⟨m.woken, m.db.updateCursor id f⟩ ⟨n.woken, n.db.updateCursor id f⟩ :=
  ⟨h.woken, h.db.updateCursor id f, h.waiting.updateCursor f hfree⟩

theorem letOff (h : m.Twins n) (hawake : m.db.locks.isAsleep t = false) :
    (m.letOff t).Twins (n.letOff t) := by
  refine ⟨?_, ⟨h.db.pool, ?_, h.db.cursors, h.db.calls⟩, h.waiting.letOff hawake⟩
  · simp only [Moment.letOff, h.woken, h.db.locks]
  · simp only [Moment.letOff, h.db.locks]

/-- A command that wakes nobody. -/
theorem carryOut (h : m.Twins n) (hordinary : c.IsOrdinary) (hfree : m.isBusy c = false)
    (hplain : c.releases = false) (hroom : (m.db.carryOut c).2.pool.disk.Roomy)
    (hfits : ¬ (m.db.carryOut c).1.answer.isExhausted)
    (hfits' : ¬ (n.db.carryOut c).1.answer.isExhausted) :
    Moment.Abreast ((m.db.carryOut c).1.answer, ⟨m.woken, (m.db.carryOut c).2⟩)
      ((n.db.carryOut c).1.answer, ⟨n.woken, (n.db.carryOut c).2⟩) := by
  cases c with
  | fetch t page mode keep =>
    exact h.call (LockTable.isAsleep_eq_false.mp hfree) (paired_beginFetch h.db t page mode keep)
      hroom hfits hfits'
  | insert t table row route =>
    obtain rfl : route = .tracked := hordinary
    exact h.call (LockTable.isAsleep_eq_false.mp hfree) (paired_beginInsert h.db t table row)
      hroom hfits hfits'
  | delete t table rid route =>
    obtain rfl : route = .tracked := hordinary
    exact h.call (LockTable.isAsleep_eq_false.mp hfree) (paired_beginDelete h.db t table rid)
      hroom hfits hfits'
  | flushAll => exact h.atOnce (Pool.agree_flushAll h.db.pool)
  | flushPage page => exact h.atOnce (Pool.agree_flushPage h.db.pool page)
  | flushOwned t =>
    simp only [Database.carryOut, h.db.locks]
    exact h.atOnce (Pool.agree_flushOwned h.db.pool t _)
  | discard page => exact ⟨.refl _, h.withPools (h.db.pool.discard page)⟩
  | openCursor cursor t table =>
    exact ⟨.refl _, h.setCursor _ (Moment.awake_of_rests (Bool.or_eq_false_iff.mp hfree).2)⟩
  | rewindCursor cursor => exact ⟨.refl _, h.updateCursor _ (Moment.awake_of_rests hfree)⟩
  | closeCursor cursor => exact ⟨.refl _, h.updateCursor _ (Moment.awake_of_rests hfree)⟩
  | next cursor => exact h.scan (Moment.awake_of_rests hfree) hroom hfits hfits'
  | rest cursor => exact h.scan (Moment.awake_of_rests hfree) hroom hfits hfits'
  | dropHandle handle =>
    exact ⟨.refl _, h.woken, h.db.letGo _, h.waiting.withPool _⟩
  | commit t => cases hplain
  | abort t => cases hplain
  | release t p => cases hplain
  | _ => cases hordinary

theorem commit (h : m.Twins n) (hawake : m.db.locks.isAsleep t = false) :
    Moment.Abreast (m.carriedOut (.commit t)) (n.carriedOut (.commit t)) := by
  have hagree := Pool.agree_settle h.db.pool t (m.db.locks.heldPages t)
  rw [Moment.carriedOut, Moment.carriedOut, h.db.locks, on_onPool, on_onPool, hagree.result]
  have htwins := h.withPools hagree.states
  cases ((Pool.settle t (m.db.locks.heldPages t)).on m.db.pool).1 with
  | error fault => exact ⟨.refl _, htwins⟩
  | ok result => exact ⟨.refl _, htwins.letOff hawake⟩

theorem abort (h : m.Twins n) (hawake : m.db.locks.isAsleep t = false) :
    Moment.Abreast (m.carriedOut (.abort t)) (n.carriedOut (.abort t)) := by
  rw [Moment.carriedOut, Moment.carriedOut, h.db.locks]
  exact ⟨.refl _, (h.withPools (h.db.pool.forget _)).letOff hawake⟩

theorem release (h : m.Twins n) (t : TxnId) (p : PageId) :
    Moment.Abreast (m.carriedOut (.release t p)) (n.carriedOut (.release t p)) := by
  rw [Moment.carriedOut, Moment.carriedOut, h.db.locks, h.woken]
  refine ⟨.refl _, rfl, ⟨h.db.pool, rfl, h.db.cursors, h.db.calls⟩, ?_⟩
  exact h.waiting.released (h.waiting.sound.release t p) fun _ =>
    LockTable.mem_release m.db.locks t p

theorem commanded (h : m.Twins n) (hordinary : c.IsOrdinary)
    (hroom : (m.commanded c).2.db.pool.disk.Roomy) (hfits : ¬ (m.commanded c).1.isExhausted)
    (hfits' : ¬ (n.commanded c).1.isExhausted) :
    Moment.Abreast (m.commanded c) (n.commanded c) := by
  cases hfree : m.isBusy c with
  | true =>
    rw [Moment.commanded, Moment.commanded, h.isBusy, hfree]
    exact ⟨.refl _, h⟩
  | false =>
    have hfree' : n.isBusy c = false := (h.isBusy c).trans hfree
    rw [commanded_of_free hfree] at hroom hfits ⊢
    rw [commanded_of_free hfree'] at hfits' ⊢
    cases hplain : c.releases with
    | false =>
      rw [carriedOut_plain m hplain] at hroom hfits ⊢
      rw [carriedOut_plain n hplain] at hfits' ⊢
      exact h.carryOut hordinary hfree hplain hroom hfits hfits'
    | true =>
      cases c with
      | commit t => exact h.commit (not_asleep hfree)
      | abort t => exact h.abort (not_asleep hfree)
      | release t p => exact h.release t p
      | _ => cases hplain

/-- A woken transaction has its turn in both. -/
theorem resumed (h : m.Twins n) (hr : r ∈ m.woken) (hroom : (m.db.resumeOne r).2.pool.disk.Roomy)
    (hfits : ¬ (answerOf (m.db.resumeOne r).1).isExhausted)
    (hfits' : ¬ (answerOf (n.db.resumeOne r).1).isExhausted) :
    Moment.Abreast (answerOf (m.db.resumeOne r).1, ⟨m.woken.erase r, (m.db.resumeOne r).2⟩)
      (answerOf (n.db.resumeOne r).1, ⟨n.woken.erase r, (n.db.resumeOne r).2⟩) := by
  obtain ⟨c, hget, rfl, cmd, hworks⟩ := h.waiting.calls r (List.mem_append_left _ hr)
  have hsound : LockTable.Sound (c.request :: m.woken.erase c.request) m.db.locks :=
    h.waiting.sound.perm (List.perm_cons_erase hr).symm
  have hresume : ∀ d : Database, d.calls.get? c.request.txn = some c →
      d.resumeOne c.request = run c { d with calls := d.calls.erase c.txn } := by
    intro d hget
    rw [resumeOne, hget]
    rfl
  have hget' : n.db.calls.get? c.request.txn = some c := by rwa [h.db.calls]
  rw [hresume m.db hget] at hroom hfits ⊢
  rw [hresume n.db hget', h.db.calls] at hfits' ⊢
  have htwins : Database.Twins { m.db with calls := m.db.calls.erase c.txn }
      { n.db with calls := m.db.calls.erase c.txn } := ⟨h.db.pool, h.db.locks, h.db.cursors, rfl⟩
  have hturns := turns_run (d := { m.db with calls := m.db.calls.erase c.txn }) hsound htwins
    (hworks.of_cursors_eq rfl) hroom hfits hfits'
  have hturned := (hturns.after (fun u hne => SortedMap.get?_erase_of_ne m.db.calls (Ne.symm hne))
    (CursorsKept.refl m.db) rfl).turned
  refine ⟨hturns.answer, congrArg (List.erase · c.request) h.woken, hturns.twins,
    .turned (fun r hr' => ⟨hsound.txn_ne r hr', h.waiting.calls r ?_⟩) hturned⟩
  exact (List.erase_sublist.append_right m.db.locks.sleepers).mem hr'

/-- Whatever one can be asked, the other can be asked, too. -/
theorem follows (h : m.Twins n) (hstep : Step m o m') :
    ∃ o' n', Step n o' n' ∧ o'.turn = o.turn := by
  cases o with
  | command c answer => exact ⟨_, _, n.step_commanded c, rfl⟩
  | resumed t outcome =>
    cases hstep with
    | resume r hr => exact ⟨_, _, .resume r (h.woken ▸ hr), rfl⟩

end Moment.Twins

/-! ## Runs -/

/-- Steps that are asked the same come out alike. -/
theorem Moment.Twins.step (h : m.Twins n) (hstep : Step m o m') (hstep' : Step n o' n')
    (hsame : o'.turn = o.turn) (hordinary : ∀ c answer, o = .command c answer → c.IsOrdinary)
    (hroom : m'.db.pool.disk.Roomy) (hfits : ¬ o.isExhausted) (hfits' : ¬ o'.isExhausted) :
    o.Alike o' ∧ m'.Twins n' := by
  cases o with
  | command c answer =>
    obtain ⟨answer', rfl⟩ : ∃ answer', o' = .command c answer' := by
      cases o' with
      | command c' answer' => exact ⟨answer', by rw [Turn.command.inj hsame]⟩
      | resumed t outcome => cases hsame
    have hcommanded := hstep.commanded
    have hcommanded' := hstep'.commanded
    have habreast : Moment.Abreast (m.commanded c) (n.commanded c) := by
      refine h.commanded (hordinary c answer rfl) ?_ ?_ ?_
      · rwa [hcommanded]
      · rwa [hcommanded]
      · rwa [hcommanded']
    rw [hcommanded, hcommanded'] at habreast
    exact ⟨⟨hsame, habreast.answer⟩, habreast.twins⟩
  | resumed t outcome =>
    cases hstep with
    | resume r hr =>
      cases hstep' with
      | resume r' hr' =>
        have htxn : r'.txn = r.txn := Turn.resumed.inj hsame
        rw [h.woken] at hr'
        obtain rfl : r' = r := List.inj_on_of_nodup_map h.waiting.sound.single
          (List.mem_append_left _ hr') (List.mem_append_left _ hr) htxn
        have habreast := h.resumed hr hroom hfits hfits'
        exact ⟨⟨rfl, habreast.answer⟩, habreast.twins⟩
      | _ => cases hsame

/-- No file gets shorter. -/
theorem Step.pages_le (h : Step m o m') (hm : m.Stable False)
    (hordinary : ∀ c answer, o = .command c answer → c.IsOrdinary) (table : TableId) :
    m.db.pool.disk.pages table ≤ m'.db.pool.disk.pages table := by
  have hallows : m.Allows False o := by
    cases o with
    | command c answer => exact Moment.allows_of_isTame (hordinary c answer rfl).isTame m answer
    | resumed t outcome => exact trivial
  exact (h.progressed hm hallows).pool.pages_le hm.housed table

theorem Moment.Twins.run {occurrences occurrences' : List Occurrence} {m₀ n₀ : Moment}
    (h : m₀.Twins n₀) (hm : m₀.Stable False) (hrun : Run m₀ occurrences m)
    (hrun' : Run n₀ occurrences' n)
    (hsame : occurrences'.map Occurrence.turn = occurrences.map Occurrence.turn)
    (hordinary : ∀ c answer, .command c answer ∈ occurrences → c.IsOrdinary)
    (hroom : m.db.pool.disk.Roomy) (hfits : ∀ o ∈ occurrences, ¬ o.isExhausted)
    (hfits' : ∀ o ∈ occurrences', ¬ o.isExhausted) :
    List.Forall₂ Occurrence.Alike occurrences occurrences' ∧ m.Twins n := by
  -- Files only grow, so page numbers were left at every earlier moment.
  induction hrun generalizing occurrences' n with
  | nil =>
    cases hrun' with
    | nil => exact ⟨.nil, h⟩
    | snoc _ _ => simp at hsame
  | @snoc occurrences m₁ m₂ o hrun hstep ih =>
    cases hrun' with
    | nil => simp at hsame
    | @snoc occurrences' n₁ n₂ o' hrun' hstep' =>
      simp only [List.map_append, List.map_cons, List.map_nil] at hsame
      obtain ⟨hbefore, hlast⟩ := List.append_inj' hsame rfl
      simp only [List.mem_append, List.mem_singleton] at hordinary hfits hfits'
      have hstable : m₁.Stable False := (AllowedRun.of_isTame hrun fun c answer hmem =>
        (hordinary c answer (Or.inl hmem)).isTame).stable hm
      have hcommand : ∀ c answer, o = .command c answer → c.IsOrdinary :=
        fun c answer heq => hordinary c answer (Or.inr heq.symm)
      obtain ⟨halike, htwins⟩ := ih hrun' hbefore
        (fun c answer hmem => hordinary c answer (Or.inl hmem))
        (hroom.of_le (hstep.pages_le hstable hcommand))
        (fun o hmem => hfits o (Or.inl hmem)) (fun o hmem => hfits' o (Or.inl hmem))
      obtain ⟨hlastAlike, htwins'⟩ := htwins.step hstep hstep' (List.singleton_inj.mp hlast)
        hcommand hroom (hfits o (Or.inr rfl)) (hfits' o' (Or.inr rfl))
      exact ⟨List.rel_append halike (.cons hlastAlike .nil), htwins'⟩

/-! ## The same but for the cache -/

/-- The databases are the same but for the pages that they keep cached. -/
structure Database.Indistinct (d e : Database) : Prop where
  locks : e.locks = d.locks
  cursors : e.cursors = d.cursors
  calls : e.calls = d.calls
  journal : e.pool.journal = d.pool.journal
  /-- The catalog and the bytes of every file. -/
  files : Disk.SameFiles d.pool.disk e.pool.disk
  /-- What a page shows, wherever it is. -/
  content : ∀ id, e.pool.content? id = d.pool.content? id
  dirtier : ∀ id, e.pool.dirtier? id = d.pool.dirtier? id

theorem Pool.Matches.dirtier?_of_some {p q : Pool} (h : p.Matches q) {id : PageId} {t : TxnId}
    (hdirty : p.dirtier? id = some t) : q.dirtier? id = some t := by
  obtain ⟨page, hcached, hpage⟩ := Option.bind_eq_some_iff.mp hdirty
  have hcached' : q.cachedPage? id = some page :=
    (h.dirty id page (by rw [hpage]; exact nofun)).mpr hcached
  rw [Pool.dirtier?, hcached']
  exact hpage

theorem Pool.Matches.dirtier? {p q : Pool} (h : p.Matches q) (id : PageId) :
    q.dirtier? id = p.dirtier? id := by
  refine Option.ext fun t => ⟨fun hdirty => h.symm.dirtier?_of_some hdirty, h.dirtier?_of_some⟩

theorem Database.Twins.indistinct (h : d.Twins e) (hroom : d.pool.disk.Roomy) :
    d.Indistinct e where
  locks := h.locks
  cursors := h.cursors
  calls := h.calls
  journal := h.pool.agreeing.journal
  files := h.pool.agreeing.files
  content := h.pool.content? hroom
  dirtier := h.pool.agreeing.dirtier?

theorem twins_create (capacity capacity' : Nat) (journal : Journal) {disk : Disk}
    (hdisk : disk.Mounted) (hworking : disk.Working) :
    Moment.Twins ⟨[], Database.create capacity journal disk⟩
      ⟨[], Database.create capacity' journal disk⟩ := by
  have hreliable : ∀ capacity, (Database.create capacity journal disk).pool.Reliable :=
    fun _ => Pool.reliable_of_empty hdisk hworking fun _ => rfl
  refine ⟨rfl, ⟨⟨⟨Disk.SameFiles.refl disk, rfl, fun _ _ _ => Iff.rfl⟩, hreliable capacity,
    hreliable capacity'⟩, rfl, rfl, rfl⟩, LockTable.sound_empty, fun r hr => ?_⟩
  exact absurd hr List.not_mem_nil

/-- How many pages fit into the cache makes no difference to anybody, as long as all that are needed
at once do fit: two runs from the same files that are asked the same tell the same, and leave
databases that are the same but for the cached pages, of which the one can be asked next what the
other can be asked.  Every beginning of a run is a run, so this holds after every step. -/
theorem cache_transparent {capacity capacity' : Nat} {journal : Journal} {disk : Disk}
    {occurrences occurrences' : List Occurrence} (hdisk : disk.Mounted) (hworking : disk.Working)
    (hrun : Run ⟨[], Database.create capacity journal disk⟩ occurrences m)
    (hrun' : Run ⟨[], Database.create capacity' journal disk⟩ occurrences' n)
    (hsame : occurrences'.map Occurrence.turn = occurrences.map Occurrence.turn)
    (hordinary : ∀ c answer, .command c answer ∈ occurrences → c.IsOrdinary)
    (hroom : m.db.pool.disk.Roomy) (hfits : ∀ o ∈ occurrences ++ occurrences', ¬ o.isExhausted) :
    List.Forall₂ Occurrence.Alike occurrences occurrences' ∧ n.woken = m.woken ∧
      m.db.Indistinct n.db ∧ ∀ o m', Step m o m' → ∃ o' n', Step n o' n' ∧ o'.turn = o.turn := by
  have hstart := twins_create capacity capacity' journal hdisk hworking
  obtain ⟨halike, htwins⟩ := hstart.run (stable_create capacity journal (Or.inr hdisk)) hrun hrun'
    hsame hordinary hroom (fun o hmem => hfits o (List.mem_append_left _ hmem))
    fun o hmem => hfits o (List.mem_append_right _ hmem)
  exact ⟨halike, htwins.woken, htwins.db.indistinct hroom, fun _ _ => htwins.follows⟩

/-- A row goes to each of two tables, and the first one is looked at again. -/
def revisited : List Command :=
  [.insert ⟨1⟩ ⟨1⟩ [7] .tracked, .commit ⟨1⟩, .insert ⟨2⟩ ⟨2⟩ [8] .tracked, .commit ⟨2⟩,
    .fetch ⟨3⟩ ⟨⟨1⟩, 0⟩ .shared none]

/-- The two tables with a cache of some capacity. -/
def twoEmptyTables (capacity : Nat) : Moment :=
  ⟨[], Database.create capacity .fresh (((∅ : Disk).addTable ⟨1⟩).addTable ⟨2⟩)⟩

/-- With room for one page the first page is read again, with room for two it never left. -/
theorem cache_transparent_revisited :
    Run (twoEmptyTables 1) ((twoEmptyTables 1).obeying revisited).1
        ((twoEmptyTables 1).obeying revisited).2 ∧
      Run (twoEmptyTables 2) ((twoEmptyTables 2).obeying revisited).1
        ((twoEmptyTables 2).obeying revisited).2 ∧
      List.Forall₂ Occurrence.Alike ((twoEmptyTables 1).obeying revisited).1
        ((twoEmptyTables 2).obeying revisited).1 ∧
      Database.Indistinct ((twoEmptyTables 1).obeying revisited).2.db
        ((twoEmptyTables 2).obeying revisited).2.db ∧
      ((twoEmptyTables 1).obeying revisited).2.db.pool.buffer.order = [⟨⟨1⟩, 0⟩] ∧
      ((twoEmptyTables 2).obeying revisited).2.db.pool.buffer.order = [⟨⟨2⟩, 0⟩, ⟨⟨1⟩, 0⟩] := by
  have hdisk := (Disk.mounted_empty.addTable ⟨1⟩).addTable ⟨2⟩
  have hworking := (Disk.working_empty.addTable ⟨1⟩).addTable ⟨2⟩
  have hrun := (twoEmptyTables 1).run_obeying revisited
  have hrun' := (twoEmptyTables 2).run_obeying revisited
  have hsame := ((twoEmptyTables 2).turns_obeying revisited).trans
    ((twoEmptyTables 1).turns_obeying revisited).symm
  have hall : ∀ c ∈ revisited, c.IsOrdinary := by simp [revisited, Command.IsOrdinary]
  have hroom : ((twoEmptyTables 1).obeying revisited).2.db.pool.disk.Roomy :=
    Disk.roomy_of_all (by decide +kernel)
  have hfits : ∀ o ∈ ((twoEmptyTables 1).obeying revisited).1 ++
      ((twoEmptyTables 2).obeying revisited).1, ¬ o.isExhausted := by
    decide +kernel
  obtain ⟨halike, -, hindistinct, -⟩ := cache_transparent hdisk hworking hrun hrun' hsame
    (fun c answer hmem => hall c (Moment.mem_of_obeying hmem)) hroom hfits
  refine ⟨hrun, hrun', halike, hindistinct, ?_, ?_⟩
  · decide +kernel
  · decide +kernel

end PagedHeap
