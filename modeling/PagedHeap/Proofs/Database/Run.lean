import PagedHeap.Database.Command
import PagedHeap.Proofs.Pool.RowOp

/-!
# Runs

Between a release and the turns of the calls that it woke, other transactions may go first.  A
moment of a run is a database together with the woken requests that have not had their turn; a step
is a command of a transaction that neither sleeps nor is woken, or the turn of a woken call.  What a
run did to rows is read off the commands and the answers alone.
-/

namespace PagedHeap

/-! ## What an observer sees -/

inductive Event where
  | fetched (txn : TxnId) (page : Page)
  | changed (txn : TxnId) (op : RowOp)
  /-- A commit or an abort was carried out, and whether it was a commit that succeeded. -/
  | ended (txn : TxnId) (committed : Bool)

/-- The row operations that a command and its reply make known. -/
def Command.operations : Command → Reply → List RowOp
  | .insert _ _ row _, .inserted rid => [.put rid row]
  | .delete _ _ rid _, .deleted => [.remove rid]
  | _, _ => []

/-- The transaction whose call the command begins. -/
def Command.caller? : Command → Option TxnId
  | .fetch txn _ _ _ => some txn
  | .insert txn _ _ _ => some txn
  | .delete txn _ _ _ => some txn
  | _ => none

def operationsOf (c : Option Command) (reply : Reply) : List RowOp :=
  match c with
  | some c => c.operations reply
  | none => []

/-- Only insertions and deletions make operations known. -/
theorem operationsOf_eq_nil (c : Option Command) {reply : Reply}
    (hinserted : ∀ rid, reply ≠ .inserted rid) (hdeleted : reply ≠ .deleted) :
    operationsOf c reply = [] := by
  cases c with
  | none => rfl
  | some c =>
    simp only [operationsOf, Command.operations]
    split
    · exact absurd rfl (hinserted _)
    · exact absurd rfl hdeleted
    · rfl

def Event.ofReply (txn : TxnId) (c : Option Command) : Reply → List Event
  | .fetched page => [.fetched txn page]
  | reply => (operationsOf c reply).map (.changed txn)

inductive Occurrence where
  | command (c : Command) (answer : Answer)
  /-- A woken call had its turn; without an outcome it fell asleep again. -/
  | resumed (txn : TxnId) (outcome : Option Outcome)

structure Ledger where
  /-- The command in whose call each transaction fell asleep last. -/
  pending : TxnId → Option Command
  events : List Event

namespace Ledger

def blank : Ledger := ⟨fun _ => none, []⟩

def add (l : Ledger) (events : List Event) : Ledger :=
  { l with events := l.events ++ events }

def postpone (l : Ledger) (txn : TxnId) (c : Command) : Ledger :=
  { l with pending := fun t => if t = txn then some c else l.pending t }

def note (l : Ledger) : Occurrence → Ledger
  | .command (.commit txn) (.done result) => l.add [.ended txn result.toBool]
  | .command (.commit txn) (.faulted _) => l.add [.ended txn false]
  | .command (.abort txn) (.done _) => l.add [.ended txn false]
  | .command c answer =>
    match c.caller?, answer with
    | some txn, .replied (.ok reply) => l.add (Event.ofReply txn (some c) reply)
    | some txn, .asleep => l.postpone txn c
    | _, _ => l
  | .resumed txn (some (.ok (.ok reply))) => l.add (Event.ofReply txn (l.pending txn) reply)
  | .resumed _ _ => l

def of (occurrences : List Occurrence) : Ledger :=
  occurrences.foldl note blank

end Ledger

/-! ## Steps -/

structure Moment where
  /-- The woken requests that are still to be made again. -/
  woken : List LockRequest
  db : Database

namespace Moment

/-- Whoever waits for its turn is as little free as one that sleeps. -/
def isBusy (m : Moment) (c : Command) : Bool :=
  { m.db with locks := { m.db.locks with sleepers := m.woken ++ m.db.locks.sleepers } }.isBusy c

/-- Releases all locks of a transaction; whom that wakes has to wait for its turn. -/
def letOff (m : Moment) (txn : TxnId) : Moment :=
  ⟨m.woken ++ (m.db.locks.releaseAll txn).1,
    { m.db with locks := (m.db.locks.releaseAll txn).2 }⟩

end Moment

/-- The command may wake calls. -/
def Command.releases : Command → Bool
  | .commit _ => true
  | .abort _ => true
  | .release _ _ => true
  | _ => false

namespace Database

theorem on_onPool {α : Type} (act : Act Pool α) (d : Database) :
    (onPool act).on d = ((act.on d.pool).1, d.withPool (act.on d.pool).2) := rfl

/-- The turn of a woken request. -/
def resumeOne (d : Database) (r : LockRequest) : Option Outcome × Database :=
  match d.calls.get? r.txn with
  | none => (none, d)
  | some c => run c { d with calls := d.calls.erase r.txn }

end Database

open Database

inductive Step (m : Moment) : Occurrence → Moment → Prop
  | busy (c : Command) (hbusy : m.isBusy c = true) : Step m (.command c .busy) m
  | plain (c : Command) (hfree : m.isBusy c = false) (hplain : c.releases = false) :
      Step m (.command c (m.db.carryOut c).1.answer) ⟨m.woken, (m.db.carryOut c).2⟩
  | commit (t : TxnId) (result : Except Error (List (PageId × Error))) (d : Database)
      (hfree : m.isBusy (.commit t) = false)
      (hsettle : (onPool (Pool.settle t (m.db.locks.heldPages t))).on m.db = (.ok result, d)) :
      Step m (.command (.commit t) (.done (result.bind (Pool.commitResult t))))
        (Moment.letOff ⟨m.woken, d⟩ t)
  | commitFault (t : TxnId) (fault : Fault) (d : Database) (hfree : m.isBusy (.commit t) = false)
      (hsettle : (onPool (Pool.settle t (m.db.locks.heldPages t))).on m.db = (.error fault, d)) :
      Step m (.command (.commit t) (.faulted fault)) ⟨m.woken, d⟩
  | abort (t : TxnId) (hfree : m.isBusy (.abort t) = false) :
      Step m (.command (.abort t) (.done (.ok ())))
        (Moment.letOff ⟨m.woken, m.db.withPool (m.db.pool.forget (m.db.locks.heldPages t))⟩ t)
  | release (t : TxnId) (p : PageId) (hfree : m.isBusy (.release t p) = false) :
      Step m (.command (.release t p) (.done (.ok ())))
        ⟨m.woken ++ (m.db.locks.release t p).1, { m.db with locks := (m.db.locks.release t p).2 }⟩
  | resume (r : LockRequest) (hr : r ∈ m.woken) :
      Step m (.resumed r.txn (m.db.resumeOne r).1) ⟨m.woken.erase r, (m.db.resumeOne r).2⟩

inductive Run (m : Moment) : List Occurrence → Moment → Prop
  | nil : Run m [] m
  | snoc {occurrences : List Occurrence} {m' m'' : Moment} {o : Occurrence}
      (h : Run m occurrences m') (hstep : Step m' o m'') : Run m (occurrences ++ [o]) m''

namespace Run

variable {m m' m'' : Moment} {o : Occurrence} {occurrences occurrences' : List Occurrence}

theorem single (h : Step m o m') : Run m [o] m' :=
  Run.nil.snoc h

theorem trans (h : Run m occurrences m') (h' : Run m' occurrences' m'') :
    Run m (occurrences ++ occurrences') m'' := by
  induction h' with
  | nil => rwa [List.append_nil]
  | snoc _ hstep ih =>
    rw [← List.append_assoc]
    exact ih.snoc hstep

end Run

/-! ## What the program does is a run -/

def resumptions (turns : List (TxnId × Option Outcome)) : List Occurrence :=
  turns.map fun (txn, outcome) => .resumed txn outcome

/-- The turns that brought a call to its end. -/
def finished (turns : List (TxnId × Option Outcome)) : List (TxnId × Outcome) :=
  turns.filterMap fun (txn, outcome) => outcome.map (Prod.mk txn)

theorem run_resume (woken : List LockRequest) (d : Database) :
    ∃ turns, Run ⟨woken, d⟩ (resumptions turns) ⟨[], (resume woken d).2⟩ ∧
      finished turns = (resume woken d).1 := by
  induction woken generalizing d with
  | nil => exact ⟨[], .nil, rfl⟩
  | cons r rest ih =>
    have hstep := Step.resume (m := ⟨r :: rest, d⟩) r List.mem_cons_self
    simp only [List.erase_cons_head] at hstep
    obtain ⟨turns, hrun, hfinished⟩ := ih (d.resumeOne r).2
    have hsame : (resume (r :: rest) d).2 = (resume rest (d.resumeOne r).2).2 ∧
        (resume (r :: rest) d).1 = finished [(r.txn, (d.resumeOne r).1)] ++
          (resume rest (d.resumeOne r).2).1 := by
      rw [resume, resumeOne]
      cases d.calls.get? r.txn with
      | none => exact ⟨rfl, rfl⟩
      | some c =>
        refine ⟨rfl, ?_⟩
        simp only
        cases (run c { d with calls := d.calls.erase r.txn }).1 <;> rfl
    refine ⟨(r.txn, (d.resumeOne r).1) :: turns, ?_, ?_⟩
    · rw [hsame.1]
      exact (Run.single hstep).trans hrun
    · rw [hsame.2, ← hfinished]
      simp only [finished, List.filterMap_cons, List.filterMap_nil]
      cases (d.resumeOne r).1 <;> rfl

/-- What a turn is answered with. -/
def answerOf : Option Outcome → Answer
  | some (.ok result) => .replied result
  | some (.error fault) => .faulted fault
  | none => .asleep

theorem answerOf_injective : Function.Injective answerOf := by
  intro o o' h
  rcases o with _ | (fault | result)
  · rcases o' with _ | (fault' | result')
    · rfl
    · cases h
    · cases h
  · rcases o' with _ | (fault' | result')
    · cases h
    · cases h
      rfl
    · cases h
  · rcases o' with _ | (fault' | result')
    · cases h
    · cases h
    · cases h
      rfl

theorem answerOf_ne_busy (o : Option Outcome) : answerOf o ≠ .busy := by
  intro h
  rcases o with _ | (fault | result)
  · cases h
  · cases h
  · cases h

theorem answer_call (d : Database) (act : Act Database Progress) :
    (d.call act).1.answer = answerOf (start act d).1 ∧ (d.call act).2 = (start act d).2 := by
  rw [call]
  rcases start act d with ⟨_ | (fault | result), d'⟩
  · exact ⟨rfl, rfl⟩
  · exact ⟨rfl, rfl⟩
  · exact ⟨rfl, rfl⟩

theorem finished_call (d : Database) (act : Act Database Progress) :
    (d.call act).1.finished = [] := by
  rw [call]
  split <;> rfl

theorem finished_atOnce (d : Database) (act : Act Pool Unit) : (d.atOnce act).1.finished = [] := by
  rw [atOnce]
  split <;> rfl

theorem finished_carryOut (d : Database) {c : Command} (h : c.releases = false) :
    (d.carryOut c).1.finished = [] := by
  have hscan : ∀ cursor harvest, (d.scan cursor harvest).1.finished = [] := by
    intro cursor harvest
    rw [scan]
    split
    · exact finished_call _ _
    · exact finished_call _ _
  cases c with
  | commit t => cases h
  | abort t => cases h
  | release t p => cases h
  | fetch t page mode keep => exact finished_call _ _
  | insert t table row route => exact finished_call _ _
  | delete t table rid route => exact finished_call _ _
  | inspect table page => exact finished_call _ _
  | next cursor => exact hscan _ _
  | rest cursor => exact hscan _ _
  | flushAll => exact finished_atOnce _ _
  | flushPage page => exact finished_atOnce _ _
  | flushOwned t => exact finished_atOnce _ _
  | implant table page => exact finished_atOnce _ _
  | _ => rfl

/-- A command is a step, and then the calls that it woke have their turns. -/
theorem run_perform (d : Database) (c : Command) :
    ∃ turns, Run ⟨[], d⟩ (.command c (d.perform c).1.answer :: resumptions turns)
        ⟨[], (d.perform c).2⟩ ∧ finished turns = (d.perform c).1.finished := by
  have hbusy : (⟨[], d⟩ : Moment).isBusy c = d.isBusy c := rfl
  rw [perform]
  split
  case isTrue h => exact ⟨[], .single (.busy c (hbusy.trans h)), rfl⟩
  case isFalse h =>
    have hfree : (⟨[], d⟩ : Moment).isBusy c = false := hbusy.trans (Bool.not_eq_true _ ▸ h)
    cases hreleases : c.releases with
    | false =>
      exact ⟨[], .single (.plain c hfree hreleases), (finished_carryOut d hreleases).symm⟩
    | true =>
      cases c with
      | commit t =>
        simp only [carryOut, Database.commit]
        rcases hsettle : (onPool (Pool.settle t (d.locks.heldPages t))).on d with
          ⟨fault | e | failures, d'⟩
        · exact ⟨[], .single (.commitFault t fault d' hfree hsettle), rfl⟩
        · obtain ⟨turns, hrun, hfinished⟩ := run_resume (d'.locks.releaseAll t).1
            { d' with locks := (d'.locks.releaseAll t).2 }
          exact ⟨turns, (Run.single (.commit t (.error e) d' hfree hsettle)).trans hrun, hfinished⟩
        · obtain ⟨turns, hrun, hfinished⟩ := run_resume (d'.locks.releaseAll t).1
            { d' with locks := (d'.locks.releaseAll t).2 }
          exact ⟨turns, (Run.single (.commit t (.ok failures) d' hfree hsettle)).trans hrun,
            hfinished⟩
      | abort t =>
        obtain ⟨turns, hrun, hfinished⟩ := run_resume (d.locks.releaseAll t).1
          { d.withPool (d.pool.forget (d.locks.heldPages t)) with
            locks := (d.locks.releaseAll t).2 }
        exact ⟨turns, (Run.single (.abort t hfree)).trans hrun, hfinished⟩
      | release t p =>
        obtain ⟨turns, hrun, hfinished⟩ := run_resume (d.locks.release t p).1
          { d with locks := (d.locks.release t p).2 }
        exact ⟨turns, (Run.single (.release t p hfree)).trans hrun, hfinished⟩
      | _ => cases hreleases

/-- So is a list of commands, up to the first fault. -/
theorem run_performAll (commands : List Command) (d : Database) :
    ∃ occurrences, Run ⟨[], d⟩ occurrences ⟨[], (performAll commands d).2⟩ ∧
      ∀ c answer, .command c answer ∈ occurrences → c ∈ commands := by
  induction commands generalizing d with
  | nil => exact ⟨[], .nil, fun _ _ h => absurd h List.not_mem_nil⟩
  | cons c rest ih =>
    obtain ⟨turns, hrun, -⟩ := run_perform d c
    have hfirst : ∀ c' answer, .command c' answer ∈
        Occurrence.command c (d.perform c).1.answer :: resumptions turns → c' = c := by
      intro c' answer hmem
      rcases List.mem_cons.mp hmem with heq | hmem
      · exact (Occurrence.command.inj heq).1
      · obtain ⟨turn, -, heq⟩ := List.mem_map.mp hmem
        cases heq
    rw [performAll]
    simp only
    split
    case isTrue =>
      refine ⟨_, hrun, fun c' answer hmem => ?_⟩
      rw [hfirst c' answer hmem]
      exact List.mem_cons_self
    case isFalse =>
      obtain ⟨occurrences, hrest, hcommands⟩ := ih (d.perform c).2
      refine ⟨_, hrun.trans hrest, fun c' answer hmem => ?_⟩
      rcases List.mem_append.mp hmem with hmem | hmem
      · rw [hfirst c' answer hmem]
        exact List.mem_cons_self
      · exact List.mem_cons_of_mem _ (hcommands c' answer hmem)

end PagedHeap
