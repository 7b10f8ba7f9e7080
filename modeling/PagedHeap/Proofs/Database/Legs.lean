import PagedHeap.Proofs.Database.Steps

/-!
# Turns leg by leg

A leg of a turn begins with a lock request and ends where the call ends, falls asleep or wants
another lock.  What holds at the beginning and is kept by every leg tells how the turn ends.  And
every step of an orderly run is the turn of a call, or leaves the calls that wait alone.
-/

namespace PagedHeap

open Database

/-- The call may ask for its lock. -/
structure Call.Ready (c : Call) (cmd : Option Command) (woken : List LockRequest) (d : Database) :
    Prop where
  sound : LockTable.Sound (c.request :: woken) d.locks
  coherent : Pool.Coherent d.owns d.pool
  works : c.WorksFor cmd d

/-- The call has been granted its lock. -/
structure Call.Granted (c : Call) (cmd : Option Command) (d : Database) : Prop where
  coherent : Pool.Coherent d.owns d.pool
  works : c.WorksFor cmd d
  wellFormed : ∀ id, (d.locks.grantOf id).WellFormed
  holds : d.holds c.page c.txn
  owns : c.mode = .exclusive → d.owns c.page c.txn

/-- How an action comes out: with an end, or with a call that wants a lock. -/
inductive Lands (wants : Call → Database → Prop) (ends : Outcome → Database → Prop) :
    Checked (Except Error Progress) × Database → Prop
  | finished {reply : Reply} {d : Database} (h : ends (.ok (.ok reply)) d) :
      Lands wants ends (.ok (.ok (.finished reply)), d)
  | wants {next : Call} {d : Database} (h : wants next d) :
      Lands wants ends (.ok (.ok (.wants next)), d)
  | refused {e : Error} {d : Database} (h : ends (.ok (.error e)) d) :
      Lands wants ends (.ok (.error e), d)
  | fault {fault : Fault} {d : Database} (h : ends (.error fault) d) :
      Lands wants ends (.error fault, d)

/-- What becomes of the end of an errand when the call is over. -/
def Call.Concludes (c : Call) (ends : Option Outcome → Database → Prop) :
    Outcome → Database → Prop
  | .ok (.ok reply), d => ends (some (.ok (.ok reply))) d
  | .ok (.error e), d => ends (some (.ok (d.fail c e).1)) (d.fail c e).2
  | .error fault, d => ends (some (.error fault)) (d.letGo (.operation c.txn))

/-- What is kept by every leg of a turn. -/
structure KeptByLegs (cmd : Option Command) (begins : Call → Database → Prop)
    (ends : Option Outcome → Database → Prop) : Prop where
  /-- Nobody loses a lock while another one is asked for. -/
  asks : ∀ c d locks, begins c d →
    (∀ id u, d.holds id u → holds { d with locks } id u) →
    (∀ id u, d.owns id u → owns { d with locks } id u) → begins c { d with locks }
  endless : ∀ c d, begins c d → c.Concludes ends (.error .endless) d
  sleeps : ∀ c d, begins c d → ends none { d with calls := d.calls.insert c.txn c }
  deadlock : ∀ c d, begins c d → c.Concludes ends (.ok (.error (.deadlock c.txn c.page))) d
  granted : ∀ c d, begins c d → c.Granted cmd d →
    Lands begins (c.Concludes ends) ((proceed c).on d)

variable {t u : TxnId} {cmd : Option Command} {command : Command} {d d' : Database} {c next : Call}
  {woken : List LockRequest} {o : Option Outcome} {l : Ledger} {m m' : Moment}
  {begins : Call → Database → Prop} {ends : Option Outcome → Database → Prop}
  {act : Act Database Progress} {occurrence : Occurrence}

theorem Lands.mono {begins' : Call → Database → Prop} {ends ends' : Outcome → Database → Prop}
    {x : Checked (Except Error Progress) × Database} (h : Lands begins ends x)
    (hbegins : ∀ c d, begins c d → begins' c d)
    (hends : ∀ outcome d, ends outcome d → ends' outcome d) : Lands begins' ends' x := by
  cases h with
  | finished hend => exact .finished (hends _ _ hend)
  | wants hnext => exact .wants (hbegins _ _ hnext)
  | refused hend => exact .refused (hends _ _ hend)
  | fault hend => exact .fault (hends _ _ hend)

/-- So it tells how a turn ends, wherever the turn is cut off. -/
theorem KeptByLegs.runBounded (h : KeptByLegs cmd begins ends) (n : Nat)
    (hc : c.Ready cmd woken d) (hbegins : begins c d) :
    ends (runBounded n c d).1 (runBounded n c d).2 := by
  induction n generalizing c d with
  | zero => exact h.endless c d hbegins
  | succ n ih =>
    obtain ⟨hl, hp, hworks⟩ := hc
    have hasked := Advanced.of_request (t := c.txn) hl
    have hsound := hl.request
    have hbegins₁ := h.asks c d _ hbegins hasked.holds hasked.owns
    rw [Database.runBounded]
    rcases LockTable.request_cases hl.acyclic c.request with
      ⟨g, hgrant, hrequest⟩ | ⟨-, -, hrequest⟩ | ⟨-, -, hrequest⟩
    case inr.inl =>
      rw [hrequest] at hbegins₁ ⊢
      exact h.deadlock c _ hbegins₁
    case inr.inr =>
      rw [hrequest] at hbegins₁ ⊢
      exact h.sleeps c _ hbegins₁
    case inl =>
      have hproceeds := proceeds_granted hl hp hworks hgrant hrequest
      rw [hrequest] at hasked hsound hbegins₁ ⊢
      have hp₁ := hasked.coherent hp
      have hgranted : c.Granted cmd { d with locks := d.locks.grantTo c.request g } :=
        ⟨hp₁, hworks.of_cursors_eq rfl, hsound.wellFormed, (granted_holds hgrant).1,
          (granted_holds hgrant).2⟩
      have hlands := h.granted c _ hbegins₁ hgranted
      simp only
      generalize (proceed c).on { d with locks := d.locks.grantTo c.request g } = x
        at hproceeds hlands ⊢
      cases hlands with
      | finished hend => exact hend
      | refused hend => exact hend
      | fault hend => exact hend
      | @wants next d' hnext =>
        obtain - | ⟨hacted, htxn, hworks'⟩ | ⟨⟨⟩⟩ := hproceeds
        have hsound' : LockTable.Sound woken d'.locks := hacted.locks ▸ hsound
        have hsleepers : d'.locks.sleepers = d.locks.sleepers := by
          rw [hacted.locks]
          rfl
        exact ih ⟨sound_next hl hsound' hsleepers htxn, hacted.coherent hp₁, hworks'⟩ hnext

theorem KeptByLegs.run (h : KeptByLegs cmd begins ends) (hc : c.Ready cmd woken d)
    (hbegins : begins c d) : ends (run c d).1 (run c d).2 :=
  h.runBounded _ hc hbegins

/-- The turn of a transaction that neither sleeps nor was woken. -/
theorem KeptByLegs.start (h : KeptByLegs cmd begins ends) (hl : LockTable.Sound woken d.locks)
    (hp : Pool.Coherent d.owns d.pool)
    (hawake : ∀ r ∈ woken ++ d.locks.sleepers, r.txn ≠ t) (hproceeds : Proceeds t cmd d (act.on d))
    (hlands : Lands begins (fun outcome d' => ends (some outcome) d') (act.on d)) :
    ends (start act d).1 (start act d).2 := by
  rw [Database.start]
  generalize act.on d = x at hproceeds hlands ⊢
  cases hlands with
  | finished hend => exact hend
  | refused hend => exact hend
  | fault hend => exact hend
  | @wants c d' hbegins =>
    obtain - | ⟨hacted, rfl, hworks⟩ | ⟨⟨⟩⟩ := hproceeds
    have hsound : LockTable.Sound (c.request :: woken) d'.locks := by
      rw [hacted.locks]
      exact hl.awake hawake
    exact h.run ⟨hsound, hacted.coherent hp, hworks⟩ hbegins

/-! ## Steps as turns -/

/-- The command begins a call of the transaction with the action. -/
inductive Begins (d : Database) : Command → TxnId → Act Database Progress → Prop
  | fetch (t : TxnId) (page : PageId) (mode : LockMode) (keep : Option HandleId) :
      Begins d (.fetch t page mode keep) t (return .wants ⟨t, page, mode, .fetch keep⟩)
  | insert (t : TxnId) (table : TableId) (row : Row) :
      Begins d (.insert t table row .tracked) t (beginInsert t table row .tracked)
  | delete (t : TxnId) (table : TableId) (rid : RecordId) :
      Begins d (.delete t table rid .tracked) t (beginDelete t table rid .tracked)
  | next (id : CursorId) (cursor : Cursor) (hget : d.cursors.get? id = some cursor) :
      Begins d (.next id) cursor.txn (scanFrom id cursor .next)
  | rest (id : CursorId) (cursor : Cursor) (hget : d.cursors.get? id = some cursor) :
      Begins d (.rest id) cursor.txn (scanFrom id cursor (.rest []))

/-- The command whose operations the call makes known. -/
def Command.asked (c : Command) : Option Command :=
  c.caller?.map fun _ => c

theorem Begins.proceeds (h : Begins d command t act) (hp : Pool.Coherent d.owns d.pool) :
    Proceeds t command.asked d (act.on d) := by
  cases h with
  | fetch _ page mode keep => exact proceeds_fetch d t page mode keep
  | insert _ table row => exact proceeds_beginInsert hp t table row
  | delete _ table rid => exact proceeds_beginDelete d t table rid
  | next id cursor hget => exact proceeds_scanFrom hget rfl (.refl cursor) .next
  | rest id cursor hget => exact proceeds_scanFrom hget rfl (.refl cursor) (.rest [])

/-- What a command that begins no call makes of a cursor. -/
def Command.onCursor (c : Command) (id : CursorId) (cursor : Option Cursor) : Option Cursor :=
  match c with
  | .openCursor id' t table => if id' = id then some (Cursor.start t table) else cursor
  | .rewindCursor id' => if id' = id then cursor.map Cursor.rewind else cursor
  | .closeCursor id' => if id' = id then cursor.map Cursor.close else cursor
  | _ => cursor

/-- The call waits for its lock, asleep or woken. -/
structure Moment.Waits (m : Moment) (c : Call) : Prop where
  request : c.request ∈ m.woken ++ m.db.locks.sleepers
  call : m.db.calls.get? c.txn = some c

/-- What a step comes to: nothing, a command aside from all calls, or the turn of a call. -/
inductive Stepped (l : Ledger) (m : Moment) : Occurrence → Moment → Prop
  | busy (command : Command) : Stepped l m (.command command .busy) m
  | aside (command : Command) (answer : Answer) {m' : Moment} (hanswer : answer ≠ .busy)
      (hidle : ∀ t act, ¬ Begins m.db command t act)
      (hwaits : ∀ c, m'.Waits c ↔ m.Waits c)
      (hcursors : ∀ id, m'.db.cursors.get? id = command.onCursor id (m.db.cursors.get? id)) :
      Stepped l m (.command command answer) m'
  | begun (command : Command) (t : TxnId) (act : Act Database Progress)
      (hbegins : Begins m.db command t act)
      (hawake : ∀ r ∈ m.woken ++ m.db.locks.sleepers, r.txn ≠ t) :
      Stepped l m (.command command (answerOf (start act m.db).1)) ⟨m.woken, (start act m.db).2⟩
  | resumed (c : Call) (hwaits : m.Waits c)
      (hready : c.Ready (l.pending c.txn) (m.woken.erase c.request)
        { m.db with calls := m.db.calls.erase c.txn }) :
      Stepped l m (.resumed c.txn (run c { m.db with calls := m.db.calls.erase c.txn }).1)
        ⟨m.woken.erase c.request, (run c { m.db with calls := m.db.calls.erase c.txn }).2⟩

namespace Moment

theorem Waits.eq_of_txn (h : m.Waits c) (h' : m.Waits next) (htxn : c.txn = next.txn) : c = next :=
  Option.some.inj (h.call.symm.trans (htxn ▸ h'.call))

/-- Locks that are let off wake requests, which go on waiting. -/
theorem waits_letOff (m : Moment) (t : TxnId) (c : Call) : (m.letOff t).Waits c ↔ m.Waits c := by
  have hmem : c.request ∈ (m.letOff t).woken ++ (m.letOff t).db.locks.sleepers ↔
      c.request ∈ m.woken ++ m.db.locks.sleepers := by
    have hreleased := LockTable.mem_releaseAll m.db.locks t (r := c.request)
    simp only [letOff, List.mem_append] at hreleased ⊢
    rw [or_assoc, hreleased]
  exact ⟨fun h => ⟨hmem.mp h.request, h.call⟩, fun h => ⟨hmem.mpr h.request, h.call⟩⟩

end Moment

namespace Step

/-- A command that keeps calls and locks as they are. -/
theorem stepped_noted (m : Moment) {answer : Answer} (hanswer : answer ≠ .busy)
    (hidle : ∀ t act, ¬ Begins m.db command t act) (hlocks : d.locks = m.db.locks)
    (hcalls : d.calls = m.db.calls)
    (hcursors : ∀ id, d.cursors.get? id = command.onCursor id (m.db.cursors.get? id)) :
    Stepped l m (.command command answer) ⟨m.woken, d⟩ := by
  refine .aside command answer hanswer hidle (fun c => ?_) hcursors
  constructor
  · intro h
    exact ⟨hlocks ▸ h.request, hcalls ▸ h.call⟩
  · intro h
    exact ⟨hlocks.symm ▸ h.request, hcalls.symm ▸ h.call⟩

theorem stepped_atOnce (m : Moment) (act : Act Pool Unit)
    (hidle : ∀ t act, ¬ Begins m.db command t act)
    (hcursors : ∀ id cursor, command.onCursor id cursor = cursor) :
    Stepped l m (.command command (m.db.atOnce act).1.answer) ⟨m.woken, (m.db.atOnce act).2⟩ := by
  rw [atOnce, on_onPool]
  cases (act.on m.db.pool).1 with
  | error fault =>
    exact stepped_noted m (fun h => by cases h) hidle rfl rfl fun id => (hcursors id _).symm
  | ok result =>
    exact stepped_noted m (fun h => by cases h) hidle rfl rfl fun id => (hcursors id _).symm

theorem stepped_updateCursor (m : Moment) (id : CursorId) (f : Cursor → Cursor)
    (hidle : ∀ t act, ¬ Begins m.db command t act)
    (hcursors : ∀ id' cursor, command.onCursor id' cursor =
      if id = id' then cursor.map f else cursor) :
    Stepped l m (.command command (.done (.ok ()))) ⟨m.woken, m.db.updateCursor id f⟩ := by
  cases hget : m.db.cursors.get? id with
  | none =>
    have hsame : m.db.updateCursor id f = m.db := by rw [updateCursor, hget]
    rw [hsame]
    refine stepped_noted m (fun h => by cases h) hidle rfl rfl fun id' => ?_
    rw [hcursors]
    split
    case isTrue heq => rw [← heq, hget, Option.map_none]
    case isFalse => rfl
  | some cursor =>
    have hset : m.db.updateCursor id f = m.db.setCursor id (f cursor) := by rw [updateCursor, hget]
    rw [hset]
    refine stepped_noted m (fun h => by cases h) hidle rfl rfl fun id' => ?_
    rw [hcursors, setCursor, SortedMap.get?_insert]
    split
    case isTrue heq => rw [← heq, hget, Option.map_some]
    case isFalse => rfl

theorem stepped_plain (hfree : m.isBusy command = false)
    (hplain : command.releases = false) (horderly : command.IsOrderly) :
    Stepped l m (.command command (m.db.carryOut command).1.answer)
      ⟨m.woken, (m.db.carryOut command).2⟩ := by
  have hbegun : ∀ t act, Begins m.db command t act → m.db.carryOut command = m.db.call act →
      (∀ r ∈ m.woken ++ m.db.locks.sleepers, r.txn ≠ t) →
      Stepped l m (.command command (m.db.carryOut command).1.answer)
        ⟨m.woken, (m.db.carryOut command).2⟩ := by
    intro t act hbegins hcarry hawake
    obtain ⟨hanswer, hdb⟩ := answer_call m.db act
    rw [hcarry, hanswer, hdb]
    exact .begun command t act hbegins hawake
  -- Without a cursor there is nothing to scan.
  have hnothing : ∀ harvest, (∀ id cursor, command.onCursor id cursor = cursor) →
      (∀ t act, ¬ Begins m.db command t act) →
      Stepped l m (.command command (m.db.call do
          return .finished (← Act.ofResult (harvested harvest none))).1.answer)
        ⟨m.woken, (m.db.call do
          return .finished (← Act.ofResult (harvested harvest none))).2⟩ := by
    intro harvest hcursors hidle
    rw [(answer_call m.db _).1, (answer_call m.db _).2, start]
    simp only [Act.on_bind, Act.on_ofResult]
    cases harvested harvest none with
    | error e =>
      exact stepped_noted m (fun h => by cases h) hidle rfl rfl fun id => (hcursors id _).symm
    | ok reply =>
      exact stepped_noted m (fun h => by cases h) hidle rfl rfl fun id => (hcursors id _).symm
  cases command with
  | fetch t page mode keep =>
    exact hbegun t _ (.fetch t page mode keep) rfl (LockTable.isAsleep_eq_false.mp hfree)
  | insert t table row route =>
    obtain rfl : route = .tracked := horderly
    exact hbegun t _ (.insert t table row) rfl (LockTable.isAsleep_eq_false.mp hfree)
  | delete t table rid route =>
    obtain rfl : route = .tracked := horderly
    exact hbegun t _ (.delete t table rid) rfl (LockTable.isAsleep_eq_false.mp hfree)
  | next id =>
    cases hget : m.db.cursors.get? id with
    | some cursor =>
      refine hbegun cursor.txn _ (.next id cursor hget) ?_
        (Moment.awake_of_rests hfree cursor hget)
      simp only [carryOut, scan, hget]
    | none =>
      simp only [carryOut, scan, hget]
      refine hnothing .next (fun _ _ => rfl) fun t act h => ?_
      cases h with
      | next id cursor hget' => cases hget.symm.trans hget'
  | rest id =>
    cases hget : m.db.cursors.get? id with
    | some cursor =>
      refine hbegun cursor.txn _ (.rest id cursor hget) ?_
        (Moment.awake_of_rests hfree cursor hget)
      simp only [carryOut, scan, hget]
    | none =>
      simp only [carryOut, scan, hget]
      refine hnothing (.rest []) (fun _ _ => rfl) fun t act h => ?_
      cases h with
      | rest id cursor hget' => cases hget.symm.trans hget'
  | flushAll => exact stepped_atOnce m _ (fun t act h => by cases h) fun _ _ => rfl
  | flushPage page => exact stepped_atOnce m _ (fun t act h => by cases h) fun _ _ => rfl
  | flushOwned t => exact stepped_atOnce m _ (fun t act h => by cases h) fun _ _ => rfl
  | openCursor id t table =>
    exact stepped_noted m (fun h => by cases h) (fun t act h => by cases h) rfl rfl fun id' =>
      SortedMap.get?_insert m.db.cursors id id' _
  | rewindCursor id =>
    exact stepped_updateCursor m id _ (fun t act h => by cases h) fun _ _ => rfl
  | closeCursor id =>
    exact stepped_updateCursor m id _ (fun t act h => by cases h) fun _ _ => rfl
  | dropHandle handle =>
    exact stepped_noted m (fun h => by cases h) (fun t act h => by cases h) rfl rfl fun _ => rfl
  | setFaults table faults =>
    exact stepped_noted m (fun h => by cases h) (fun t act h => by cases h) rfl rfl fun _ => rfl
  | setVerdicts verdicts =>
    exact stepped_noted m (fun h => by cases h) (fun t act h => by cases h) rfl rfl fun _ => rfl
  | commit t => cases hplain
  | abort t => cases hplain
  | _ => cases horderly

/-- Locks are released at the end of a transaction, and calls that wait go on waiting. -/
theorem stepped_ended (m : Moment) {p : Pool} {answer : Answer} (hanswer : answer ≠ .busy)
    (hidle : ∀ t act, ¬ Begins m.db command t act)
    (hcursors : ∀ id cursor, command.onCursor id cursor = cursor) :
    Stepped l m (.command command answer) (Moment.letOff ⟨m.woken, m.db.withPool p⟩ t) :=
  .aside command answer hanswer hidle
    (fun c => (Moment.waits_letOff ⟨m.woken, m.db.withPool p⟩ t c).trans
      ⟨fun h => ⟨h.request, h.call⟩, fun h => ⟨h.request, h.call⟩⟩)
    fun id => (hcursors id _).symm

theorem stepped (h : Step m occurrence m') (hm : m.Consistent l)
    (horderly : ∀ c answer, occurrence = .command c answer → c.IsOrderly) :
    Stepped l m occurrence m' := by
  cases h with
  | busy c hbusy => exact .busy c
  | plain c hfree hplain => exact stepped_plain hfree hplain (horderly _ _ rfl)
  | commit t result d hfree hsettle =>
    obtain ⟨-, rfl⟩ := Prod.mk.inj ((on_onPool _ _).symm.trans hsettle)
    exact stepped_ended m (fun h => by cases h) (fun t act h => by cases h) fun _ _ => rfl
  | commitFault t fault d hfree hsettle =>
    obtain ⟨-, rfl⟩ := Prod.mk.inj ((on_onPool _ _).symm.trans hsettle)
    exact stepped_noted m (fun h => by cases h) (fun t act h => by cases h) rfl rfl fun _ => rfl
  | abort t hfree =>
    exact stepped_ended m (fun h => by cases h) (fun t act h => by cases h) fun _ _ => rfl
  | release t p hfree => exact absurd (horderly _ _ rfl) id
  | resume r hr =>
    obtain ⟨c, hget, rfl, hworks⟩ := hm.calls r (List.mem_append_left _ hr)
    have hresume : m.db.resumeOne c.request =
        run c { m.db with calls := m.db.calls.erase c.txn } := by
      rw [resumeOne, hget]
      rfl
    rw [hresume]
    exact .resumed c ⟨List.mem_append_left _ hr, hget⟩
      ⟨hm.sound.perm (List.perm_cons_erase hr).symm, hm.coherent, hworks.of_cursors_eq rfl⟩

end Step

/-! ## Who waits after a turn -/

/-- After the turn of a transaction the others wait as before, and it waits itself if it fell asleep
again. -/
theorem Ran.waits (h : Ran t cmd woken d o d')
    (hawake : ∀ r ∈ woken ++ d.locks.sleepers, r.txn ≠ t) :
    Moment.Waits ⟨woken, d'⟩ c ↔
      c.txn ≠ t ∧ Moment.Waits ⟨woken, d⟩ c ∨
        c.txn = t ∧ o = none ∧ d'.calls.get? t = some c := by
  have hold : c.txn ≠ t → (Moment.Waits ⟨woken, d'⟩ c ↔ Moment.Waits ⟨woken, d⟩ c) := by
    intro hne
    have hcalls := h.advanced.calls c.txn hne
    have hmem : c.request ∈ woken ++ d'.locks.sleepers ↔ c.request ∈ woken ++ d.locks.sleepers := by
      cases o with
      | some outcome => rw [h.ended (by simp)]
      | none =>
        obtain ⟨c', hsleepers, htxn, -⟩ := h.asleep rfl
        have hother : c.request ≠ c'.request := fun heq =>
          hne ((congrArg LockRequest.txn heq).trans htxn)
        rw [hsleepers, ← List.append_assoc, List.mem_append, List.mem_singleton]
        exact or_iff_left hother
    exact ⟨fun hc => ⟨hmem.mp hc.request, hcalls ▸ hc.call⟩,
      fun hc => ⟨hmem.mpr hc.request, hcalls.trans hc.call⟩⟩
  by_cases hc : c.txn = t
  case neg => simp only [hold hc, hc, ne_eq, not_false_iff, true_and, false_and, or_false]
  simp only [hc, ne_eq, not_true_eq_false, false_and, true_and, false_or]
  constructor
  · intro hwaits
    cases o with
    | some outcome =>
      have hmem := hwaits.request
      simp only [h.ended (by simp)] at hmem
      exact absurd hc (hawake _ hmem)
    | none => exact ⟨rfl, hc ▸ hwaits.call⟩
  · rintro ⟨rfl, hcall⟩
    obtain ⟨c', hsleepers, -, hcall', -⟩ := h.asleep rfl
    obtain rfl := Option.some.inj (hcall.symm.trans hcall')
    refine ⟨?_, hc.symm ▸ hcall⟩
    simp only [hsleepers, List.mem_append, List.mem_singleton, or_true]

namespace Moment.Consistent

theorem ran_begun (hm : m.Consistent l) (hbegins : Begins m.db command t act)
    (hawake : ∀ r ∈ m.woken ++ m.db.locks.sleepers, r.txn ≠ t) :
    Ran t command.asked m.woken m.db (start act m.db).1 (start act m.db).2 :=
  ran_start hm.sound hm.coherent hawake (hbegins.proceeds hm.coherent)

/-- The others that wait while a woken call has its turn. -/
theorem waits_taken (hne : next.txn ≠ c.txn) :
    Moment.Waits ⟨m.woken.erase c.request, { m.db with calls := m.db.calls.erase c.txn }⟩ next ↔
      m.Waits next := by
  have hrequest : next.request ≠ c.request := fun heq => hne (congrArg LockRequest.txn heq)
  have hmem : next.request ∈ m.woken.erase c.request ++ m.db.locks.sleepers ↔
      next.request ∈ m.woken ++ m.db.locks.sleepers := by
    rw [List.mem_append, List.mem_append, List.mem_erase_of_ne hrequest]
  have hcall : (m.db.calls.erase c.txn).get? next.txn = m.db.calls.get? next.txn :=
    SortedMap.get?_erase_of_ne m.db.calls (Ne.symm hne)
  exact ⟨fun h => ⟨hmem.mp h.request, hcall ▸ h.call⟩,
    fun h => ⟨hmem.mpr h.request, hcall.trans h.call⟩⟩

theorem waits_begun (hm : m.Consistent l) (hbegins : Begins m.db command t act)
    (hawake : ∀ r ∈ m.woken ++ m.db.locks.sleepers, r.txn ≠ t) (c : Call) :
    Moment.Waits ⟨m.woken, (start act m.db).2⟩ c ↔
      c.txn ≠ t ∧ m.Waits c ∨
        c.txn = t ∧ (start act m.db).1 = none ∧ (start act m.db).2.calls.get? t = some c :=
  (hm.ran_begun hbegins hawake).waits hawake

end Moment.Consistent

theorem Call.Ready.waits (hready : c.Ready cmd (m.woken.erase c.request)
      { m.db with calls := m.db.calls.erase c.txn }) (next : Call) :
    let turn := run c { m.db with calls := m.db.calls.erase c.txn }
    Moment.Waits ⟨m.woken.erase c.request, turn.2⟩ next ↔
      next.txn ≠ c.txn ∧ m.Waits next ∨
        next.txn = c.txn ∧ turn.1 = none ∧ turn.2.calls.get? c.txn = some next := by
  intro turn
  rw [(ran_run hready.sound hready.coherent hready.works).waits hready.sound.txn_ne]
  refine or_congr (and_congr_right fun hne => ?_) Iff.rfl
  exact Moment.Consistent.waits_taken hne

/-! ## Steps of an orderly run -/

/-- A step of an orderly run, with the events that it adds to the ledger. -/
structure Passes (upkeep : Prop) (l : Ledger) (m : Moment) (o : Occurrence) (l' : Ledger)
    (m' : Moment) (new : List Event) : Prop where
  step : Step m o m'
  orderly : ∀ c answer, o = .command c answer → c.IsOrderly
  before : m.Consistent l
  after : m'.Consistent l'
  stepped : Stepped l m o m'
  noted : l' = l.note o
  events : l'.events = l.events ++ new
  effect : Effect upkeep m.db m'.db new

theorem Step.passes {upkeep : Prop} (h : Step m occurrence m') (hm : m.Consistent l)
    (horderly : ∀ c answer, occurrence = .command c answer →
      c.IsOrderly ∧ (c.Upkeep → upkeep)) :
    ∃ new, Passes upkeep l m occurrence (l.note occurrence) m' new := by
  obtain ⟨hm', new, hevents, heffect⟩ := h.sequel hm horderly
  have hstepped := h.stepped hm fun c answer heq => (horderly c answer heq).1
  exact ⟨new, h, fun c answer heq => (horderly c answer heq).1, hm, hm', hstepped, rfl, hevents,
    heffect⟩

/-- What every step of an orderly run keeps holds to its end, whatever moment the run starts at. -/
theorem Run.carries {upkeep : Prop} {occurrences : List Occurrence} (h : Run m occurrences m')
    (hm : m.Consistent l) (horderly : OrderlyRun upkeep occurrences)
    {P : List Occurrence → List Event → Moment → Prop} (hstart : P [] [] m)
    (hstep : ∀ occurrences new m₁ o m₂ new' l₁ l₂, P occurrences new m₁ →
      l₁.events = l.events ++ new → Passes upkeep l₁ m₁ o l₂ m₂ new' →
        P (occurrences ++ [o]) (new ++ new') m₂) :
    m'.Consistent (occurrences.foldl Ledger.note l) ∧
      ∃ new, (occurrences.foldl Ledger.note l).events = l.events ++ new ∧ P occurrences new m' := by
  induction h with
  | nil => exact ⟨hm, [], (List.append_nil _).symm, hstart⟩
  | @snoc occurrences m₁ m₂ o _ hlast ih =>
    obtain ⟨horderly₁, horderly₂⟩ := orderlyRun_append.mp horderly
    obtain ⟨hm₁, new, hevents, hp⟩ := ih horderly₁
    obtain ⟨new', hpasses⟩ := hlast.passes hm₁ (orderlyRun_cons.mp horderly₂).1
    rw [List.foldl_append]
    refine ⟨hpasses.after, new ++ new', ?_, hstep _ _ _ _ _ _ _ _ hp hevents hpasses⟩
    rw [← List.append_assoc, ← hevents]
    exact hpasses.events

/-! ## What others keep for themselves -/

theorem Event.not_ended_of_reply (t : TxnId) (cmd : Option Command) (reply : Reply) :
    ∀ u committed, .ended u committed ∉ Event.ofReply t cmd reply := by
  intro u committed hmem
  cases reply with
  | fetched page => cases List.mem_singleton.mp hmem
  | _ =>
    obtain ⟨op, -, heq⟩ := List.mem_map.mp hmem
    cases heq

/-- Only commits and aborts make the end of a transaction known. -/
theorem Ledger.note_unended (l : Ledger) {o : Occurrence}
    (h : ∀ c answer, o = .command c answer → c.releases = false) :
    ∃ new, (l.note o).events = l.events ++ new ∧ ∀ u committed, .ended u committed ∉ new := by
  have hnone : ∃ new, l.events = l.events ++ new ∧ ∀ u committed, Event.ended u committed ∉ new :=
    ⟨[], (List.append_nil _).symm, fun _ _ h => absurd h List.not_mem_nil⟩
  cases o with
  | resumed t outcome =>
    rcases outcome with _ | (fault | (e | reply))
    · exact hnone
    · exact hnone
    · exact hnone
    · exact ⟨_, rfl, Event.not_ended_of_reply t _ reply⟩
  | command c answer =>
    have hplain := h c answer rfl
    cases hcaller : c.caller? with
    | none =>
      have hsame : l.note (.command c answer) = l := by
        cases c with
        | fetch | insert | delete => cases hcaller
        | commit | abort | release => cases hplain
        | _ => rfl
      rw [hsame]
      exact hnone
    | some t =>
      cases c with
      | fetch | insert | delete =>
        rcases answer with _ | _ | (e | reply) | result | fault
        · exact hnone
        · exact hnone
        · exact hnone
        · exact ⟨_, rfl, Event.not_ended_of_reply _ _ reply⟩
        · exact hnone
        · exact hnone
      | _ => cases hcaller

/-- Only the end of a transaction makes it give up pages that it has for itself. -/
theorem Passes.owns {upkeep : Prop} {l' : Ledger} {new : List Event} {page : PageId}
    (h : Passes upkeep l m occurrence l' m' new) (hunended : ∀ committed, .ended u committed ∉ new)
    (howns : m.db.owns page u) : m'.db.owns page u := by
  have hquiet : (∀ c answer, occurrence = .command c answer → c.releases = false) →
      m'.db.owns page u := by
    intro hplain
    obtain ⟨new', hnew, hnone⟩ := l.note_unended hplain
    have hevents := h.events
    rw [h.noted, hnew] at hevents
    obtain rfl := List.append_cancel_left hevents
    cases h.effect with
    | served _ _ _ _ howns' => exact howns' page u howns
    | fetched _ _ _ _ howns' _ _ => exact howns' page u howns
    | ended t committed _ _ _ => exact absurd (List.mem_singleton.mpr rfl) (hnone t committed)
  have hreleased : ∀ t (result : Bool) (d : Database), l'.events = l.events ++ [.ended t result] →
      d.locks = m.db.locks → Database.owns { d with locks := (d.locks.releaseAll t).2 } page u := by
    intro t result d hevents hlocks
    have hne : u ≠ t := by
      rintro rfl
      have hnew := List.append_cancel_left (h.events.symm.trans hevents)
      exact hunended result (hnew ▸ List.mem_singleton.mpr rfl)
    rw [hlocks]
    exact LockTable.owns_releaseAll h.before.sound hne howns
  have hnoted := congrArg Ledger.events h.noted
  cases h.step with
  | busy c hbusy => exact howns
  | plain c hfree hplain => exact hquiet fun c' answer heq => by cases heq; exact hplain
  | resume r hr => exact hquiet fun c' answer heq => by cases heq
  | release t p hfree => exact absurd (h.orderly _ _ rfl) id
  | commit t result d hfree hsettle =>
    obtain ⟨-, rfl⟩ := Prod.mk.inj ((on_onPool _ _).symm.trans hsettle)
    exact hreleased t _ _ hnoted rfl
  | commitFault t fault d hfree hsettle =>
    obtain ⟨-, rfl⟩ := Prod.mk.inj ((on_onPool _ _).symm.trans hsettle)
    exact howns
  | abort t hfree => exact hreleased t _ _ hnoted rfl

/-! ## Cursors that a turn leaves alone -/

/-- The call reads on for the cursor. -/
def Call.Scans (c : Call) (id : CursorId) : Prop :=
  ∃ harvest, c.errand = .scan id harvest

/-- If another lock is wanted, then not for the cursor. -/
def Progress.Apart (id : CursorId) (progress : Progress) : Prop :=
  ∀ next, progress = .wants next → ¬ next.Scans id

/-- The cursor stays as it is. -/
abbrev Act.Spares (id : CursorId) (act : Act Database Progress) : Prop :=
  act.Keeps (fun d => d.cursors.get? id) (Progress.Apart id)

variable {id id' : CursorId}

theorem apart_finished (id : CursorId) (reply : Reply) : (Progress.finished reply).Apart id :=
  fun _ h => by cases h

theorem apart_wants (h : ¬ c.Scans id) : (Progress.wants c).Apart id := by
  intro next heq
  obtain rfl := Progress.wants.inj heq
  exact h

theorem not_scans (h : ∀ harvest, c.errand ≠ .scan id harvest) : ¬ c.Scans id :=
  fun ⟨harvest, herrand⟩ => h harvest herrand

theorem keeps_onPool {α : Type} (id : CursorId) (act : Act Pool α) :
    (onPool act).Keeps (fun d => d.cursors.get? id) fun _ => True :=
  fun _ => ⟨rfl, fun _ _ => trivial⟩

theorem spares_handBack (id : CursorId) (t : TxnId) (f : FrameId) (reply : Reply)
    (rest : List Detour) : (handBack t f reply rest).Spares id := by
  induction rest with
  | nil =>
    exact .after_modify (fun _ => rfl)
      (.bind (keeps_onPool id _) fun _ _ => .of_pure (apart_finished id reply))
  | cons detour rest ih =>
    cases detour with
    | letGo => exact .after_modify (fun _ => rfl) ih
    | visit page mode => exact .of_pure (apart_wants (not_scans fun _ h => by cases h))

theorem spares_afterChange (id : CursorId) (t : TxnId) (table : TableId) (f : FrameId)
    (reply : Reply) : (afterChange t table f reply).Spares id := by
  refine .after_modify (fun _ => rfl) (.after_get fun d => ?_)
  cases d.pool.disk.store? table with
  | none => exact spares_handBack id t f reply []
  | some store => exact spares_handBack id t f reply store.detours

theorem spares_insertFrom (id : CursorId) (t : TxnId) (table : TableId) (pageNo : UInt32)
    (row : Row) (ahead : Nat) (route : Route) :
    (insertFrom t table pageNo row ahead route).Spares id := by
  cases ahead with
  | zero =>
    exact .bind (keeps_onPool id _) fun page _ =>
      .of_pure (apart_wants (not_scans fun _ h => by cases h))
  | succ ahead => exact .of_pure (apart_wants (not_scans fun _ h => by cases h))

theorem spares_insertHere (id : CursorId) (c : Call) (row : Row) (ahead : Nat) (route : Route) :
    (insertHere c row ahead route).Spares id := by
  refine .bind (keeps_onPool id _) fun f _ => .bind (keeps_onPool id _) fun placed _ => ?_
  cases placed with
  | none => exact spares_insertFrom id c.txn c.page.table _ row ahead route
  | some rid =>
    cases route with
    | tracked => exact spares_afterChange id c.txn c.page.table f _
    | direct => exact .of_pure (apart_finished id _)

theorem spares_deleteHere (id : CursorId) (c : Call) (slot : SlotId) (route : Route) :
    (deleteHere c slot route).Spares id := by
  refine .bind (keeps_onPool id _) fun f _ => .bind (keeps_onPool id _) fun _ _ => ?_
  cases route with
  | tracked => exact spares_afterChange id c.txn c.page.table f _
  | direct => exact .of_pure (apart_finished id _)

theorem spares_fetchHere (id : CursorId) (c : Call) (keep : Option HandleId) :
    (fetchHere c keep).Spares id := by
  have hout : ∀ f, Act.Spares id (do return .finished (.fetched ((← get).pool.page f))) :=
    fun f => .after_get fun d => .of_pure (apart_finished id _)
  refine .bind (keeps_onPool id _) fun f _ => ?_
  cases keep with
  | none => exact hout f
  | some handle => exact .after_modify (fun _ => rfl) (hout f)

theorem spares_harvested (id : CursorId) (harvest : Harvest) (failure : Option Error) :
    Act.Spares id (do return .finished (← Act.ofResult (harvested harvest failure))) :=
  .after_ofResult fun _ => .of_pure (apart_finished id _)

/-- A scan moves its own cursor only. -/
theorem spares_scanFrom (hne : id' ≠ id) (cursor : Cursor) (harvest : Harvest) :
    (scanFrom id' cursor harvest).Spares id := by
  have hset : ∀ (cursor : Cursor) (d : Database),
      (d.setCursor id' cursor).cursors.get? id = d.cursors.get? id := fun cursor d =>
    SortedMap.get?_insert_of_ne d.cursors cursor hne
  have hscan : ∀ (cursor : Cursor) (harvest : Harvest),
      ¬ (⟨cursor.txn, cursor.nextPage, .shared, .scan id' harvest⟩ : Call).Scans id := by
    intro cursor harvest
    refine not_scans fun _ h => ?_
    exact hne (Errand.scan.inj h).1
  have hclose : ∀ (cursor : Cursor) (harvest : Harvest) (failure : Option Error),
      (endScan id' cursor harvest failure).Spares id := fun cursor harvest failure =>
    .after_modify (hset _) (spares_harvested id harvest failure)
  have hpage : ∀ (cursor : Cursor) (harvest : Harvest),
      (wantPage id' cursor harvest).Spares id := by
    intro cursor harvest
    refine .after_get fun d => ?_
    split
    case h_1 e _ => exact hclose cursor harvest (some e)
    case h_2 =>
      split
      case isTrue => exact hclose cursor harvest none
      case isFalse => exact .after_modify (hset _) (.of_pure (apart_wants (hscan cursor harvest)))
  simp only [scanFrom]
  split
  case isFalse => exact spares_harvested id harvest none
  case isTrue =>
    split
    case h_1 => exact .after_modify (hset _) (.of_pure (apart_finished id _))
    case h_2 => exact hpage cursor .next
    case h_3 rows => exact hpage { cursor with pending := [] } (.rest (rows ++ cursor.pending))

theorem spares_proceed (h : ¬ c.Scans id) : (proceed c).Spares id := by
  rw [proceed]
  split
  case h_1 keep _ => exact spares_fetchHere id c keep
  case h_2 row ahead route _ => exact spares_insertHere id c row ahead route
  case h_3 slot route _ => exact spares_deleteHere id c slot route
  case h_4 f rest reply _ =>
    exact .bind (keeps_onPool id _) fun _ _ => spares_handBack id c.txn f reply rest
  case h_5 id' harvest herrand =>
    have hne : id' ≠ id := by
      rintro rfl
      exact h ⟨harvest, herrand⟩
    refine .bind (keeps_onPool id _) fun f _ => .after_get fun d => .after_checked fun rows =>
      .after_get fun d => ?_
    cases d.cursors.get? id' with
    | none => exact spares_harvested id harvest none
    | some cursor => exact spares_scanFrom hne _ harvest

theorem fail_spares (h : ¬ c.Scans id) (d : Database) (e : Error) :
    (d.fail c e).2.cursors.get? id = d.cursors.get? id := by
  rw [Database.fail]
  split
  case h_2 => rfl
  case h_1 id' harvest herrand =>
    have hne : id' ≠ id := by
      rintro rfl
      exact h ⟨harvest, herrand⟩
    rw [updateCursor]
    split
    · exact SortedMap.get?_insert_of_ne _ _ hne
    · rfl

/-- A call that does not scan only lets go of the page that it was changing. -/
theorem fail_of_not_scans (h : ∀ id, ¬ c.Scans id) (d : Database) (e : Error) :
    d.fail c e = (.error e, d.letGo (.operation c.txn)) := by
  rw [Database.fail]
  split
  case h_1 id harvest herrand => exact absurd ⟨harvest, herrand⟩ (h id)
  case h_2 => rfl

/-- The cursor is as it was, and nobody reads on for it. -/
structure Spared (id : CursorId) (cursor : Option Cursor) (t : TxnId) (o : Option Outcome)
    (d : Database) : Prop where
  cursor : d.cursors.get? id = cursor
  calls : o = none → ∀ c, d.calls.get? t = some c → ¬ c.Scans id

theorem spared_kept (cmd : Option Command) (id : CursorId) (cursor : Option Cursor) (t : TxnId) :
    KeptByLegs cmd (fun c d => c.txn = t ∧ ¬ c.Scans id ∧ d.cursors.get? id = cursor)
      (Spared id cursor t) where
  asks c d locks hbegins _ _ := hbegins
  endless c d hbegins := ⟨hbegins.2.2, fun h => by cases h⟩
  sleeps c d hbegins := by
    obtain ⟨rfl, hapart, hcursor⟩ := hbegins
    refine ⟨hcursor, fun _ c' hcall => ?_⟩
    obtain rfl := Option.some.inj ((SortedMap.get?_insert_self _ _ _).symm.trans hcall)
    exact hapart
  deadlock c d hbegins := ⟨(fail_spares hbegins.2.1 d _).trans hbegins.2.2, fun h => by cases h⟩
  granted c d hbegins hgranted := by
    obtain ⟨rfl, hapart, hcursor⟩ := hbegins
    obtain ⟨hkept, hgood⟩ := spares_proceed hapart d
    have hproceeds := proceeds_proceed hgranted.coherent hgranted.works hgranted.holds hgranted.owns
    generalize (proceed c).on d = x at hkept hgood hproceeds ⊢
    rcases x with ⟨fault | e | reply | next, d'⟩
    · exact .fault ⟨hkept.trans hcursor, fun h => by cases h⟩
    · exact .refused ⟨((fail_spares hapart d' e).trans hkept).trans hcursor, fun h => by cases h⟩
    · exact .finished ⟨hkept.trans hcursor, fun h => by cases h⟩
    · obtain - | ⟨-, htxn, -⟩ | ⟨⟨⟩⟩ := hproceeds
      exact .wants ⟨htxn, hgood _ rfl next rfl, hkept.trans hcursor⟩

theorem spares_tracked {α : Type} {route : Route} {x : Database → Except Error α}
    {act : Act Database Progress} (h : act.Spares id) :
    Act.Spares id
      (if route = .tracked then do let _ ← Act.ofResult (x (← get)); act else act) := by
  split
  case isTrue => exact .after_get fun d => .after_ofResult fun _ => h
  case isFalse => exact h

/-- The cursor that the command scans with. -/
def Command.scanned? : Command → Option CursorId
  | .next id => some id
  | .rest id => some id
  | _ => none

/-- The cursor that the command opens, rewinds or closes. -/
def Command.reset? : Command → Option CursorId
  | .openCursor id _ _ => some id
  | .rewindCursor id => some id
  | .closeCursor id => some id
  | _ => none

/-- A command that does not scan with the cursor begins no call that does. -/
theorem Begins.spares (h : Begins d command t act) (hscanned : command.scanned? ≠ some id) :
    act.Spares id := by
  cases h with
  | fetch _ page mode keep => exact .of_pure (apart_wants (not_scans fun _ h => by cases h))
  | insert _ table row =>
    rw [beginInsert]
    refine spares_tracked ?_
    split
    case isTrue => exact .of_throw _
    case isFalse =>
      exact .after_get fun d => .after_ofResult fun count =>
        spares_insertFrom id t table 0 row count.toNat .tracked
  | delete _ table rid =>
    rw [beginDelete]
    refine spares_tracked (.after_get fun d => ?_)
    cases d.pool.disk.store? table with
    | none => exact .of_throw _
    | some store =>
      exact .after_ofResult fun _ => .of_pure (apart_wants (not_scans fun _ h => by cases h))
  | next id' cursor hget =>
    exact spares_scanFrom (fun heq => hscanned (congrArg some heq)) cursor .next
  | rest id' cursor hget =>
    exact spares_scanFrom (fun heq => hscanned (congrArg some heq)) cursor (.rest [])

/-- The turn of a call that was just begun leaves the cursor alone. -/
theorem Moment.Consistent.spared_begun (hm : m.Consistent l) (hbegins : Begins m.db command t act)
    (hawake : ∀ r ∈ m.woken ++ m.db.locks.sleepers, r.txn ≠ t)
    (hscanned : command.scanned? ≠ some id) :
    Spared id (m.db.cursors.get? id) t (start act m.db).1 (start act m.db).2 := by
  have hproceeds := hbegins.proceeds hm.coherent
  obtain ⟨hkept, hgood⟩ := hbegins.spares hscanned m.db
  refine (spared_kept command.asked id (m.db.cursors.get? id) t).start hm.sound hm.coherent hawake
    hproceeds ?_
  generalize act.on m.db = x at hkept hgood hproceeds ⊢
  rcases x with ⟨fault | e | reply | next, d'⟩
  · exact .fault ⟨hkept, fun h => by cases h⟩
  · exact .refused ⟨hkept, fun h => by cases h⟩
  · exact .finished ⟨hkept, fun h => by cases h⟩
  · obtain - | ⟨-, htxn, -⟩ | ⟨⟨⟩⟩ := hproceeds
    exact .wants ⟨htxn, hgood _ rfl next rfl, hkept⟩

theorem Call.Ready.spared (hready : c.Ready cmd woken d) (hscans : ¬ c.Scans id) :
    Spared id (d.cursors.get? id) c.txn (run c d).1 (run c d).2 :=
  (spared_kept cmd id (d.cursors.get? id) c.txn).run hready ⟨rfl, hscans, rfl⟩

end PagedHeap
