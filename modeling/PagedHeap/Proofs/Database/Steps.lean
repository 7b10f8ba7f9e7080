import PagedHeap.Proofs.Database.Turns

/-!
# Steps

What every step of an orderly run preserves, and what it does to the pool and to the locks, told
together with the events that it adds to the ledger.
-/

namespace PagedHeap

open Database

/-- Rows change only through the calls of transactions, and locks are kept to the end. -/
def Command.IsOrderly : Command → Prop
  | .fetch _ _ _ _ => True
  | .insert _ _ _ route => route = .tracked
  | .delete _ _ _ route => route = .tracked
  | .commit _ => True
  | .abort _ => True
  | .flushAll => True
  | .flushPage _ => True
  | .flushOwned _ => True
  | .openCursor _ _ _ => True
  | .rewindCursor _ => True
  | .closeCursor _ => True
  | .next _ => True
  | .rest _ => True
  | .dropHandle _ => True
  | .setFaults _ _ => True
  | .setVerdicts _ => True
  | _ => False

/-- The call of the request waits, for the command that the ledger has for its transaction. -/
def Database.Sleeps (d : Database) (l : Ledger) (r : LockRequest) : Prop :=
  ∃ c, d.calls.get? r.txn = some c ∧ c.request = r ∧ c.WorksFor (l.pending r.txn) d

structure Moment.Consistent (l : Ledger) (m : Moment) : Prop where
  sound : LockTable.Sound m.woken m.db.locks
  calls : ∀ r ∈ m.woken ++ m.db.locks.sleepers, m.db.Sleeps l r
  coherent : Pool.Coherent m.db.owns m.db.pool

/-- Pages are written back before anybody commits, or the log and the devices are set to fail. -/
def Command.Upkeep : Command → Prop
  | .flushAll => True
  | .flushPage _ => True
  | .flushOwned _ => True
  | .setFaults _ faults => faults.unwritable ≠ []
  | .setVerdicts verdicts => ∃ n duty, verdicts n duty ≠ none
  | _ => False

/-- How a commit or an abort leaves the pool. -/
inductive Finish (t : TxnId) (d d' : Database) : Bool → Prop
  | settled (result : Except Error (List (PageId × Error)))
      (hsettle : (Pool.settle t (d.locks.heldPages t)).on d.pool = (.ok result, d'.pool))
      (hfree : ∀ id, d'.pool.FreeOf t id) :
      Finish t d d' (result.bind (Pool.commitResult t)).toBool
  | forgotten (hforget : d'.pool = d.pool.forget (d.locks.heldPages t))
      (hfree : ∀ id, d'.pool.FreeOf t id) : Finish t d d' false

/-- What a step does, by the events that it adds. -/
inductive Effect (upkeep : Prop) (d d' : Database) : List Event → Prop
  | served (t : TxnId) (ops : List RowOp)
      (hmoves : Pool.Moves upkeep d'.owns t d.pool ops d'.pool)
      (hholds : ∀ id u, d.holds id u → d'.holds id u)
      (howns : ∀ id u, d.owns id u → d'.owns id u) :
      Effect upkeep d d' (ops.map (.changed t))
  | fetched (t : TxnId) (page : Page) (hmoves : Pool.Moves upkeep d'.owns t d.pool [] d'.pool)
      (hholds : ∀ id u, d.holds id u → d'.holds id u)
      (howns : ∀ id u, d.owns id u → d'.owns id u)
      (hcached : d'.pool.cachedPage? page.id = some page) (hheld : d'.holds page.id t) :
      Effect upkeep d d' [.fetched t page]
  | ended (t : TxnId) (committed : Bool) (hfinish : Finish t d d' committed)
      (hending : Pool.Ending d.owns t d.pool d'.pool)
      (hholds : ∀ id u, u ≠ t → d.holds id u → d'.holds id u) :
      Effect upkeep d d' [.ended t committed]

/-- A moment and a ledger that follow upon others. -/
structure Sequel (upkeep : Prop) (l : Ledger) (m : Moment) (l' : Ledger) (m' : Moment) : Prop where
  consistent : m'.Consistent l'
  effect : ∃ events, l'.events = l.events ++ events ∧ Effect upkeep m.db m'.db events

variable {upkeep : Prop} {t u : TxnId} {cmd : Option Command} {command : Command}
  {d d' : Database} {id : PageId} {ops : List RowOp} {woken : List LockRequest}
  {o : Option Outcome} {l l' : Ledger} {m : Moment}
  {r : LockRequest} {act : Act Database Progress}

namespace Effect

variable {events : List Event}

theorem pages_le (h : Effect upkeep d d' events) (table : TableId) :
    d.pool.disk.pages table ≤ d'.pool.disk.pages table := by
  cases h with
  | served _ _ hmoves _ _ => exact hmoves.pages_le table
  | fetched _ _ hmoves _ _ _ _ => exact hmoves.pages_le table
  | ended _ _ _ hending _ => exact hending.pages_le table

theorem tidy (h : Effect upkeep d d' events) (hp : Pool.Coherent d.owns d.pool)
    (htidy : d.pool.Tidy) : d'.pool.Tidy := by
  cases h with
  | served _ _ hmoves _ howns => exact hmoves.tidy (hp.mono howns) htidy
  | fetched _ _ hmoves _ howns _ _ => exact hmoves.tidy (hp.mono howns) htidy
  | ended _ _ _ hending _ => exact hending.tidy hp htidy

end Effect

/-! ## The ledger -/

/-- The events of a turn. -/
def eventsAt (t : TxnId) (cmd : Option Command) : Option Outcome → List Event
  | some (.ok (.ok reply)) => Event.ofReply t cmd reply
  | _ => []

/-- What a turn for the command of a transaction adds to the ledger. -/
def Ledger.answered (l : Ledger) (t : TxnId) (command : Command) : Option Outcome → Ledger
  | some (.ok (.ok reply)) => l.add (Event.ofReply t (some command) reply)
  | some _ => l
  | none => l.postpone t command

theorem note_caller (hcaller : command.caller? = some t) (l : Ledger) (o : Option Outcome) :
    l.note (.command command (answerOf o)) = l.answered t command o := by
  cases command with
  | fetch txn _ _ _ =>
    obtain rfl := Option.some.inj hcaller
    rcases o with _ | (fault | (e | reply)) <;> rfl
  | insert txn _ _ _ =>
    obtain rfl := Option.some.inj hcaller
    rcases o with _ | (fault | (e | reply)) <;> rfl
  | delete txn _ _ _ =>
    obtain rfl := Option.some.inj hcaller
    rcases o with _ | (fault | (e | reply)) <;> rfl
  | _ => cases hcaller

theorem note_call (hcaller : command.caller? = some t) (l : Ledger) (o : Option Outcome) :
    (l.note (.command command (answerOf o))).events = l.events ++ eventsAt t (some command) o ∧
      (∀ u, u ≠ t → (l.note (.command command (answerOf o))).pending u = l.pending u) ∧
      (o = none → (l.note (.command command (answerOf o))).pending t = some command) := by
  rw [note_caller hcaller]
  rcases o with _ | (fault | (e | reply))
  · exact ⟨(List.append_nil _).symm, fun u hne => if_neg hne, fun _ => if_pos rfl⟩
  · exact ⟨(List.append_nil _).symm, fun _ _ => rfl, fun h => nomatch h⟩
  · exact ⟨(List.append_nil _).symm, fun _ _ => rfl, fun h => nomatch h⟩
  · exact ⟨rfl, fun _ _ => rfl, fun h => nomatch h⟩

theorem note_resumed (l : Ledger) (t : TxnId) (o : Option Outcome) :
    (l.note (.resumed t o)).events = l.events ++ eventsAt t (l.pending t) o ∧
      (l.note (.resumed t o)).pending = l.pending := by
  rcases o with _ | (fault | (e | reply))
  · exact ⟨(List.append_nil _).symm, rfl⟩
  · exact ⟨(List.append_nil _).symm, rfl⟩
  · exact ⟨(List.append_nil _).symm, rfl⟩
  · exact ⟨rfl, rfl⟩

/-! ## Calls that wait -/

theorem Database.Sleeps.mono (h : d.Sleeps l r) (hcalls : d'.calls.get? r.txn = d.calls.get? r.txn)
    (hkept : CursorsKept d d') (hpending : l'.pending r.txn = l.pending r.txn) :
    d'.Sleeps l' r := by
  obtain ⟨c, hget, hrequest, hworks⟩ := h
  exact ⟨c, hcalls.trans hget, hrequest, hpending ▸ hworks.mono hkept⟩

/-! ## Turns -/

theorem Ran.consistent (h : Ran t cmd woken d o d') (hp : Pool.Coherent d.owns d.pool)
    (hcalls : ∀ r ∈ woken ++ d.locks.sleepers, r.txn ≠ t ∧ d.Sleeps l r)
    (hothers : ∀ u, u ≠ t → l'.pending u = l.pending u)
    (hmine : o = none → ∀ c : Call, c.WorksFor cmd d' → c.WorksFor (l'.pending t) d') :
    Moment.Consistent l' ⟨woken, d'⟩ := by
  have hold : ∀ r ∈ woken ++ d.locks.sleepers, d'.Sleeps l' r := fun r hr =>
    (hcalls r hr).2.mono (h.advanced.calls r.txn (hcalls r hr).1) h.advanced.cursors
      (hothers r.txn (hcalls r hr).1)
  refine ⟨h.sound, fun r hr => ?_, h.advanced.coherent hp⟩
  cases o with
  | some outcome =>
    have hr' : r ∈ woken ++ d'.locks.sleepers := hr
    rw [h.ended (by simp)] at hr'
    exact hold r hr'
  | none =>
    obtain ⟨c, hsleepers, htxn, hget, hworks⟩ := h.asleep rfl
    have hr' : r ∈ woken ++ d'.locks.sleepers := hr
    rw [hsleepers, ← List.append_assoc] at hr'
    rcases List.mem_append.mp hr' with hr' | hr'
    · exact hold r hr'
    · obtain rfl := List.mem_singleton.mp hr'
      have hsame : c.request.txn = t := htxn
      exact ⟨c, hsame ▸ hget, rfl, hsame ▸ hmine rfl c hworks⟩

theorem Ran.effect (h : Ran t cmd woken d o d') : Effect upkeep d d' (eventsAt t cmd o) := by
  have hserved : Effect upkeep d d' ((operationsAt cmd o).map (.changed t)) :=
    .served t _ (h.advanced.moves.permit False.elim) h.advanced.holds h.advanced.owns
  rcases o with _ | (fault | (e | reply))
  · exact hserved
  · exact hserved
  · exact hserved
  · cases reply with
    | fetched page =>
      obtain ⟨hcached, hheld⟩ := h.fetched page rfl
      have hmoves := h.advanced.moves
      have hnone : operationsOf cmd (.fetched page) = [] :=
        operationsOf_eq_nil cmd (fun _ h => by cases h) fun h => by cases h
      rw [operationsAt, hnone] at hmoves
      exact .fetched t page (hmoves.permit False.elim) h.advanced.holds h.advanced.owns hcached
        hheld
    | _ => exact hserved

namespace Moment.Consistent

/-- The calls that wait while a transaction has its turn. -/
theorem others (hm : m.Consistent l) (hawake : ∀ r ∈ m.woken ++ m.db.locks.sleepers, r.txn ≠ t) :
    ∀ r ∈ m.woken ++ m.db.locks.sleepers, r.txn ≠ t ∧ m.db.Sleeps l r :=
  fun r hr => ⟨hawake r hr, hm.calls r hr⟩

/-- A command that begins a call of a transaction that is free. -/
theorem sequel_call (hm : m.Consistent l) (hcaller : command.caller? = some t)
    (hcarry : m.db.carryOut command = m.db.call act)
    (hawake : ∀ r ∈ m.woken ++ m.db.locks.sleepers, r.txn ≠ t)
    (h : Proceeds t (some command) m.db (act.on m.db)) :
    Sequel upkeep l m (l.note (.command command (m.db.carryOut command).1.answer))
      ⟨m.woken, (m.db.carryOut command).2⟩ := by
  have hran := ran_start hm.sound hm.coherent hawake h
  obtain ⟨hanswer, hdb⟩ := answer_call m.db act
  rw [hcarry, hanswer, hdb]
  obtain ⟨hevents, hothers, hmine⟩ := note_call hcaller l (start act m.db).1
  refine ⟨hran.consistent hm.coherent (hm.others hawake) hothers fun hnone c hworks => ?_,
    _, hevents, hran.effect⟩
  rw [hmine hnone]
  exact hworks

/-- A scan is written down nowhere. -/
theorem sequel_scan (hm : m.Consistent l)
    (hawake : ∀ r ∈ m.woken ++ m.db.locks.sleepers, r.txn ≠ t)
    (h : Proceeds t none m.db (act.on m.db)) :
    Sequel upkeep l m l ⟨m.woken, (m.db.call act).2⟩ := by
  have hran := ran_start hm.sound hm.coherent hawake h
  rw [(answer_call m.db act).2]
  have hconsistent : Moment.Consistent l ⟨m.woken, (start act m.db).2⟩ :=
    hran.consistent hm.coherent (hm.others hawake) (fun _ _ => rfl) fun _ c hworks =>
      hworks.of_none _
  have hnone : operationsAt none (start act m.db).1 = [] := by
    rcases (start act m.db).1 with _ | (fault | (e | reply)) <;> rfl
  have hmoves := hran.advanced.moves
  rw [hnone] at hmoves
  exact ⟨hconsistent, [], (List.append_nil _).symm,
    .served t [] (hmoves.permit False.elim) hran.advanced.holds hran.advanced.owns⟩

/-- A change of the pool that nobody asked for on behalf of rows. -/
theorem sequel_pool (hm : m.Consistent l) {p : Pool} (t : TxnId)
    (hmoves : Pool.Moves upkeep m.db.owns t m.db.pool [] p) :
    Sequel upkeep l m l ⟨m.woken, m.db.withPool p⟩ := by
  refine ⟨⟨hm.sound, fun r hr => ?_, hmoves.coherent hm.coherent⟩, [],
    (List.append_nil _).symm, ?_⟩
  · exact (hm.calls r hr).mono rfl (CursorsKept.refl m.db) rfl
  · exact .served t [] hmoves (fun _ _ h => h) fun _ _ h => h

/-- Changes of cursors whose calls do not wait. -/
theorem sequel_cursors (hm : m.Consistent l) {cursors : SortedMap CursorId Cursor}
    (hkept : ∀ id cursor, m.db.cursors.get? id = some cursor →
      (∃ r ∈ m.woken ++ m.db.locks.sleepers, r.txn = cursor.txn) →
        cursors.get? id = some cursor) :
    Sequel upkeep l m l ⟨m.woken, { m.db with cursors }⟩ := by
  refine ⟨⟨hm.sound, fun r hr => ?_, hm.coherent⟩, [], (List.append_nil _).symm, ?_⟩
  · obtain ⟨c, hget, rfl, hworks⟩ := hm.calls r hr
    exact ⟨c, hget, rfl, hworks.of_own_cursors fun id cursor hcursor htxn =>
      hkept id cursor hcursor ⟨c.request, hr, htxn.symm⟩⟩
  · exact .served ⟨0⟩ [] .refl (fun _ _ h => h) fun _ _ h => h

/-- Whose turn it is when a woken request is made again. -/
theorem turn (hm : m.Consistent l) (hr : r ∈ m.woken) :
    ∃ c : Call, c.request = r ∧ LockTable.Sound (c.request :: m.woken.erase r) m.db.locks ∧
      c.WorksFor (l.pending c.txn) m.db ∧
      m.db.resumeOne r = run c { m.db with calls := m.db.calls.erase c.txn } := by
  obtain ⟨c, hget, rfl, hworks⟩ := hm.calls r (List.mem_append_left _ hr)
  refine ⟨c, rfl, hm.sound.perm (List.perm_cons_erase hr).symm, hworks, ?_⟩
  rw [resumeOne, hget]
  rfl

/-- The turn of a woken call. -/
theorem sequel_resume (hm : m.Consistent l) (hr : r ∈ m.woken) :
    Sequel upkeep l m (l.note (.resumed r.txn (m.db.resumeOne r).1))
      ⟨m.woken.erase r, (m.db.resumeOne r).2⟩ := by
  obtain ⟨c, rfl, hsound, hworks, hresume⟩ := hm.turn hr
  have hcalls : ∀ r ∈ m.woken.erase c.request ++ m.db.locks.sleepers, r.txn ≠ c.txn ∧
      m.db.Sleeps l r := by
    intro r hr'
    refine ⟨hsound.txn_ne r hr', hm.calls r ?_⟩
    exact (List.erase_sublist.append_right m.db.locks.sleepers).mem hr'
  have htaken : Advanced c.txn m.db { m.db with calls := m.db.calls.erase c.txn } [] := by
    refine ⟨fun _ _ h => h, fun _ _ h => h, fun u hne => ?_, CursorsKept.refl _, .refl⟩
    exact SortedMap.get?_erase_of_ne m.db.calls (Ne.symm hne)
  have hran : Ran c.txn (l.pending c.txn) (m.woken.erase c.request) m.db _ _ :=
    .after htaken rfl (ran_run hsound hm.coherent (hworks.of_cursors_eq rfl))
  rw [hresume]
  obtain ⟨hevents, hpending⟩ :=
    note_resumed l c.txn (run c { m.db with calls := m.db.calls.erase c.txn }).1
  refine ⟨hran.consistent hm.coherent hcalls (fun u _ => congrFun hpending u)
    fun _ c' hworks' => ?_, _, hevents, hran.effect⟩
  have hsame := congrFun hpending c.txn
  exact hsame.symm ▸ hworks'

/-! ## Ends of transactions -/

/-- The pages of the transaction are nobody else's. -/
theorem mine (hm : m.Consistent l) (t : TxnId) :
    ∀ id ∈ m.db.locks.heldPages t, ∀ u, m.db.owns id u → u = t := by
  intro id hid u howns
  exact ((hm.sound.wellFormed id).eq_of_owns howns ((hm.sound.held_iff t id).mp hid)).symm

/-- Locks are let go of when no cached page holds changes of the transaction. -/
theorem consistent_letOff (hm : m.Consistent l) (hawake : m.db.locks.isAsleep t = false)
    (hpending : l'.pending = l.pending) {p : Pool} (hp : Pool.Coherent m.db.owns p)
    (hfree : ∀ id, p.FreeOf t id) :
    (Moment.letOff ⟨m.woken, m.db.withPool p⟩ t).Consistent l' := by
  refine ⟨hm.sound.releaseAll hawake, fun r hr => ?_, hp.mounted, hp.framed, hp.present,
    fun id page u hcached hdirty => ?_, hp.faithful⟩
  · have hwaits : r ∈ m.woken ++ m.db.locks.sleepers :=
      LockTable.mem_of_released (fun _ => LockTable.mem_releaseAll m.db.locks t) hr
    exact (hm.calls r hwaits).mono rfl (CursorsKept.refl _) (congrFun hpending _)
  · refine LockTable.owns_releaseAll hm.sound ?_ (hp.owned id page u hcached hdirty)
    rintro rfl
    exact hfree id page hcached hdirty

/-- A page that the transaction does not hold is free of its changes. -/
theorem freeOf (hm : m.Consistent l) (hid : id ∉ m.db.locks.heldPages t) :
    m.db.pool.FreeOf t id := by
  intro page hcached hdirty
  have howns : m.db.owns id t := hm.coherent.owned id page t hcached hdirty
  exact hid ((hm.sound.held_iff t id).mpr howns.1)

theorem sequel_commit (hm : m.Consistent l) (hawake : m.db.locks.isAsleep t = false)
    {result : Except Error (List (PageId × Error))}
    (hsettle : (onPool (Pool.settle t (m.db.locks.heldPages t))).on m.db = (.ok result, d)) :
    Sequel upkeep l m (l.add [.ended t (result.bind (Pool.commitResult t)).toBool])
      (Moment.letOff ⟨m.woken, d⟩ t) := by
  obtain ⟨failures, p, hon, hending, hkept, hsettled⟩ :=
    Pool.ending_settle (m.db.locks.heldPages t) hm.coherent (hm.mine t)
  rw [on_onPool, hon] at hsettle
  obtain ⟨hresult, rfl⟩ := Prod.mk.inj hsettle
  obtain rfl := Except.ok.inj hresult
  have hfree : ∀ id, p.FreeOf t id := by
    intro id
    by_cases hid : id ∈ m.db.locks.heldPages t
    · exact hsettled id hid
    · exact hkept id (hm.freeOf hid)
  have hpending : (l.add [.ended t (Pool.commitResult t failures).toBool]).pending = l.pending :=
    rfl
  exact ⟨hm.consistent_letOff hawake hpending (hending.coherent hm.coherent) hfree, _, rfl,
    .ended t _ (.settled (.ok failures) hon hfree) hending fun _ _ hne hheld =>
      LockTable.holders_releaseAll hne hheld⟩

theorem sequel_abort (hm : m.Consistent l) (hawake : m.db.locks.isAsleep t = false) :
    Sequel upkeep l m (l.add [.ended t false])
      (Moment.letOff ⟨m.woken, m.db.withPool (m.db.pool.forget (m.db.locks.heldPages t))⟩ t) := by
  have hending := Pool.ending_forget (m.db.locks.heldPages t) hm.coherent (hm.mine t)
  obtain ⟨hkept, hdropped⟩ := Pool.freeOf_forget (m.db.locks.heldPages t) t m.db.pool
  have hfree : ∀ id, (m.db.pool.forget (m.db.locks.heldPages t)).FreeOf t id := by
    intro id
    by_cases hid : id ∈ m.db.locks.heldPages t
    · exact hdropped id hid
    · exact hkept id (hm.freeOf hid)
  have hpending : (l.add [.ended t false]).pending = l.pending := rfl
  exact ⟨hm.consistent_letOff hawake hpending (hending.coherent hm.coherent) hfree, _, rfl,
    .ended t false (.forgotten rfl hfree) hending fun _ _ hne hheld =>
      LockTable.holders_releaseAll hne hheld⟩

/-! ## Other commands -/

/-- A new cursor takes the place of none that a waiting call reads. -/
theorem cursor_kept {waiting : List LockRequest} {id id' : CursorId} {old : Cursor}
    (cursor : Cursor)
    (hfree : ∀ old, d.cursors.get? id = some old → ∀ r ∈ waiting, r.txn ≠ old.txn)
    (hold : d.cursors.get? id' = some old) (hwaits : ∃ r ∈ waiting, r.txn = old.txn) :
    (d.setCursor id cursor).cursors.get? id' = some old := by
  obtain ⟨r, hr, htxn⟩ := hwaits
  have hne : id ≠ id' := by
    rintro rfl
    exact hfree old hold r hr htxn
  exact (SortedMap.get?_insert_of_ne d.cursors cursor hne).trans hold

/-- Pages are flushed for nobody in particular. -/
theorem sequel_flush (hm : m.Consistent l) {act : Act Pool Unit}
    (h : ∃ result p, act.on m.db.pool = (result, p) ∧
      Pool.Moves upkeep m.db.owns t m.db.pool [] p) :
    Sequel upkeep l m l ⟨m.woken, (m.db.atOnce act).2⟩ := by
  obtain ⟨result, p, hon, hmoves⟩ := h
  have hsame : (m.db.atOnce act).2 = m.db.withPool p := by
    rw [atOnce, on_onPool, hon]
    cases result <;> rfl
  rw [hsame]
  exact hm.sequel_pool t hmoves

/-- The cursor may be changed by its own transaction. -/
theorem sequel_setCursor (hm : m.Consistent l) {id : CursorId} (cursor : Cursor)
    (hfree : ∀ old, m.db.cursors.get? id = some old →
      ∀ r ∈ m.woken ++ m.db.locks.sleepers, r.txn ≠ old.txn) :
    Sequel upkeep l m l ⟨m.woken, m.db.setCursor id cursor⟩ :=
  hm.sequel_cursors fun _ _ => cursor_kept cursor hfree

theorem sequel_updateCursor (hm : m.Consistent l) {id : CursorId} (f : Cursor → Cursor)
    (hfree : ∀ old, m.db.cursors.get? id = some old →
      ∀ r ∈ m.woken ++ m.db.locks.sleepers, r.txn ≠ old.txn) :
    Sequel upkeep l m l ⟨m.woken, m.db.updateCursor id f⟩ := by
  rw [updateCursor]
  split
  case h_1 => exact hm.sequel_setCursor _ hfree
  case h_2 => exact hm.sequel_pool ⟨0⟩ .refl

/-- The calls that wait are of other transactions than the cursor's. -/
theorem sequel_scanOf (hm : m.Consistent l) (cursor : CursorId) (harvest : Harvest)
    (hfree : ∀ old, m.db.cursors.get? cursor = some old →
      ∀ r ∈ m.woken ++ m.db.locks.sleepers, r.txn ≠ old.txn) :
    Sequel upkeep l m l ⟨m.woken, (m.db.scan cursor harvest).2⟩ := by
  rw [scan]
  split
  case h_1 old hold =>
    exact hm.sequel_scan (hfree old hold) (proceeds_scanFrom hold rfl (.refl old) harvest)
  case h_2 =>
    have hsame : (m.db.call do
        return .finished (← Act.ofResult (harvested harvest none))).2 = m.db := by
      rw [(answer_call m.db _).2, start]
      simp only [Act.on_bind, Act.on_ofResult]
      cases harvested harvest none <;> rfl
    rw [hsame]
    exact hm.sequel_pool ⟨0⟩ .refl

end Moment.Consistent

/-- Every command of an orderly run keeps the invariant. -/
theorem Moment.Consistent.sequel_carryOut (hm : m.Consistent l) (horderly : command.IsOrderly)
    (hupkeep : command.Upkeep → upkeep) (hfree : m.isBusy command = false)
    (hplain : command.releases = false) :
    Sequel upkeep l m (l.note (.command command (m.db.carryOut command).1.answer))
      ⟨m.woken, (m.db.carryOut command).2⟩ := by
  have hsame : ∀ p : Pool, p.buffer.frames = m.db.pool.buffer.frames →
      p.buffer.cache = m.db.pool.buffer.cache → Disk.SameFiles m.db.pool.disk p.disk →
      upkeep ∨ (m.db.pool.Steady → p.Steady) →
      Sequel upkeep l m l ⟨m.woken, m.db.withPool p⟩ := fun p hframes hcache hdisk hsteady =>
    hm.sequel_pool ⟨0⟩ (.single (Pool.move_of_same hm.coherent.framed hframes hcache hdisk hsteady))
  cases command with
  | fetch t page mode keep =>
    exact hm.sequel_call rfl rfl (LockTable.isAsleep_eq_false.mp hfree)
      (proceeds_fetch m.db t page mode keep)
  | insert t table row route =>
    obtain rfl : route = .tracked := horderly
    exact hm.sequel_call rfl rfl (LockTable.isAsleep_eq_false.mp hfree)
      (proceeds_beginInsert hm.coherent t table row)
  | delete t table rid route =>
    obtain rfl : route = .tracked := horderly
    exact hm.sequel_call rfl rfl (LockTable.isAsleep_eq_false.mp hfree)
      (proceeds_beginDelete m.db t table rid)
  | flushAll =>
    obtain ⟨result, p, hon, hmoves⟩ := Pool.flushAll_cases hm.coherent ⟨0⟩
    exact hm.sequel_flush ⟨.ok result, p, hon, hmoves.permit fun _ => hupkeep trivial⟩
  | flushPage page =>
    obtain ⟨result, p, hon, hmoves⟩ := Pool.flushPage_cases hm.coherent ⟨0⟩ page
    exact hm.sequel_flush ⟨.ok result, p, hon, hmoves.permit fun _ => hupkeep trivial⟩
  | flushOwned t =>
    obtain ⟨result, p, hon, hmoves⟩ := Pool.flushOwned_cases hm.coherent ⟨0⟩ t _
    exact hm.sequel_flush ⟨.ok result, p, hon, hmoves.permit fun _ => hupkeep trivial⟩
  | openCursor cursor t table =>
    exact hm.sequel_setCursor _ (Moment.awake_of_rests (Bool.or_eq_false_iff.mp hfree).2)
  | rewindCursor cursor => exact hm.sequel_updateCursor _ (Moment.awake_of_rests hfree)
  | closeCursor cursor => exact hm.sequel_updateCursor _ (Moment.awake_of_rests hfree)
  | next cursor => exact hm.sequel_scanOf cursor .next (Moment.awake_of_rests hfree)
  | rest cursor => exact hm.sequel_scanOf cursor (.rest []) (Moment.awake_of_rests hfree)
  | dropHandle handle =>
    exact hsame _ rfl rfl (Disk.SameFiles.refl _) (Or.inr fun h => h.withBuffer _)
  | setFaults table faults =>
    refine hsame _ rfl rfl (Disk.SameFiles.update m.db.pool.disk table fun _ => rfl) ?_
    by_cases hwritable : faults.unwritable = []
    · exact Or.inr fun h => h.update table fun _ _ => hwritable
    · exact Or.inl (hupkeep hwritable)
  | setVerdicts verdicts =>
    refine hsame _ rfl rfl (Disk.SameFiles.refl _) ?_
    by_cases hwilling : ∀ n duty, verdicts n duty = none
    · exact Or.inr fun h => ⟨hwilling, h.writable⟩
    · obtain ⟨n, hn⟩ := Classical.not_forall.mp hwilling
      obtain ⟨duty, hduty⟩ := Classical.not_forall.mp hn
      exact Or.inl (hupkeep ⟨n, duty, hduty⟩)
  | commit t => cases hplain
  | abort t => cases hplain
  | _ => cases horderly

/-- Who neither sleeps nor was woken does not sleep. -/
theorem Moment.not_asleep (hfree : ({ m.db.locks with
    sleepers := m.woken ++ m.db.locks.sleepers } : LockTable).isAsleep t = false) :
    m.db.locks.isAsleep t = false :=
  LockTable.isAsleep_eq_false.mpr fun r hr =>
    LockTable.isAsleep_eq_false.mp hfree r (List.mem_append_right m.woken hr)

/-- So does every step. -/
theorem Step.sequel {occurrence : Occurrence} {m' : Moment} (h : Step m occurrence m')
    (hm : m.Consistent l)
    (horderly : ∀ c answer, occurrence = .command c answer →
      c.IsOrderly ∧ (c.Upkeep → upkeep)) :
    Sequel upkeep l m (l.note occurrence) m' := by
  cases h with
  | busy c hbusy =>
    have hnote : l.note (.command c .busy) = l := by
      cases c <;> rfl
    rw [hnote]
    exact hm.sequel_pool ⟨0⟩ .refl
  | plain c hfree hplain =>
    exact hm.sequel_carryOut (horderly _ _ rfl).1 (horderly _ _ rfl).2 hfree hplain
  | commit t result d hfree hsettle => exact hm.sequel_commit (Moment.not_asleep hfree) hsettle
  | commitFault t fault d hfree hsettle =>
    exact absurd (congrArg Prod.fst hsettle) (Pool.settle_ne_fault t _ m.db.pool fault)
  | abort t hfree => exact hm.sequel_abort (Moment.not_asleep hfree)
  | release t p hfree => exact absurd (horderly _ _ rfl).1 id
  | resume r hr => exact hm.sequel_resume hr

/-! ## Runs -/

theorem consistent_create (capacity : Nat) (journal : Journal) {disk : Disk}
    (hdisk : disk.Mounted) :
    Moment.Consistent Ledger.blank ⟨[], Database.create capacity journal disk⟩ := by
  have hnone : ∀ id, (Database.create capacity journal disk).pool.cachedPage? id = none :=
    fun id => rfl
  refine ⟨LockTable.sound_empty, fun r hr => absurd hr List.not_mem_nil, hdisk,
    Buffer.framed_empty capacity, fun id page hcached => ?_, fun id page t hcached _ => ?_,
    fun id page img hcached _ _ => ?_⟩
  · rw [hnone] at hcached
    cases hcached
  · rw [hnone] at hcached
    cases hcached
  · rw [hnone] at hcached
    cases hcached

theorem Ledger.of_snoc (occurrences : List Occurrence) (o : Occurrence) :
    Ledger.of (occurrences ++ [o]) = (Ledger.of occurrences).note o := by
  rw [Ledger.of, List.foldl_append]
  rfl

/-- Only orderly commands were carried out, and none for upkeep unless it is permitted. -/
def OrderlyRun (upkeep : Prop) (occurrences : List Occurrence) : Prop :=
  ∀ c answer, .command c answer ∈ occurrences → c.IsOrderly ∧ (c.Upkeep → upkeep)

theorem orderlyRun_append {first rest : List Occurrence} :
    OrderlyRun upkeep (first ++ rest) ↔ OrderlyRun upkeep first ∧ OrderlyRun upkeep rest := by
  constructor
  · intro h
    exact ⟨fun c answer hmem => h c answer (List.mem_append_left _ hmem),
      fun c answer hmem => h c answer (List.mem_append_right _ hmem)⟩
  · rintro ⟨hfirst, hrest⟩ c answer hmem
    exact (List.mem_append.mp hmem).elim (hfirst c answer) (hrest c answer)

theorem orderlyRun_cons {o : Occurrence} {rest : List Occurrence} :
    OrderlyRun upkeep (o :: rest) ↔
      (∀ c answer, o = .command c answer → c.IsOrderly ∧ (c.Upkeep → upkeep)) ∧
        OrderlyRun upkeep rest := by
  constructor
  · intro h
    exact ⟨fun c answer heq => h c answer (heq ▸ List.mem_cons_self),
      fun c answer hmem => h c answer (List.mem_cons_of_mem _ hmem)⟩
  · rintro ⟨hfirst, hrest⟩ c answer hmem
    exact (List.mem_cons.mp hmem).elim (fun heq => hfirst c answer heq.symm) (hrest c answer)

/-- What holds at first and is kept by every step of an orderly run holds at its end. -/
theorem Run.induct {capacity : Nat} {journal : Journal} {disk : Disk}
    {occurrences : List Occurrence} {m : Moment}
    (h : Run ⟨[], Database.create capacity journal disk⟩ occurrences m) (hdisk : disk.Mounted)
    (horderly : OrderlyRun upkeep occurrences) {P : Ledger → Moment → Prop}
    (hstart : P Ledger.blank ⟨[], Database.create capacity journal disk⟩)
    (hstep : ∀ l l' m m', P l m → m.Consistent l → Sequel upkeep l m l' m' → P l' m') :
    m.Consistent (Ledger.of occurrences) ∧ P (Ledger.of occurrences) m := by
  induction h with
  | nil => exact ⟨consistent_create capacity journal hdisk, hstart⟩
  | @snoc occurrences m' m'' o _ hlast ih =>
    obtain ⟨hm, hp⟩ := ih fun c answer hmem => horderly c answer (List.mem_append_left _ hmem)
    have hsequel : Sequel upkeep _ _ _ _ := hlast.sequel hm fun c answer heq =>
      horderly c answer (List.mem_append_right _ (List.mem_singleton.mpr heq.symm))
    rw [Ledger.of_snoc]
    exact ⟨hsequel.consistent, hstep _ _ m' m'' hp hm hsequel⟩

end PagedHeap
