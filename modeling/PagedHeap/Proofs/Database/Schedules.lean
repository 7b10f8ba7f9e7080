import PagedHeap.Proofs.Database.Steps

/-!
# Schedules

What a command comes to at a moment is a function of the moment and the command, so a list of
commands makes a run.
-/

namespace PagedHeap

open Database

/-- What a step is to do. -/
inductive Turn where
  | command (c : Command)
  /-- A woken transaction has its turn. -/
  | resumed (txn : TxnId)

def Occurrence.turn : Occurrence → Turn
  | .command c _ => .command c
  | .resumed txn _ => .resumed txn

variable {c : Command} {m m' : Moment}

/-! ## What a command comes to -/

/-- What a command is answered that nobody has to wait for, and the moment that it leaves. -/
def Moment.carriedOut (m : Moment) : Command → Answer × Moment
  | .commit t =>
    match (onPool (Pool.settle t (m.db.locks.heldPages t))).on m.db with
    | (.ok result, d) => (.done (result.bind (Pool.commitResult t)), Moment.letOff ⟨m.woken, d⟩ t)
    | (.error fault, d) => (.faulted fault, ⟨m.woken, d⟩)
  | .abort t =>
    (.done (.ok ()),
      Moment.letOff ⟨m.woken, m.db.withPool (m.db.pool.forget (m.db.locks.heldPages t))⟩ t)
  | .release t p =>
    (.done (.ok ()),
      ⟨m.woken ++ (m.db.locks.release t p).1, { m.db with locks := (m.db.locks.release t p).2 }⟩)
  | c => ((m.db.carryOut c).1.answer, ⟨m.woken, (m.db.carryOut c).2⟩)

def Moment.commanded (m : Moment) (c : Command) : Answer × Moment :=
  if m.isBusy c then (.busy, m) else m.carriedOut c

theorem Moment.commanded_of_free (hfree : m.isBusy c = false) : m.commanded c = m.carriedOut c := by
  rw [Moment.commanded, hfree]
  rfl

theorem Moment.carriedOut_plain (m : Moment) (hplain : c.releases = false) :
    m.carriedOut c = ((m.db.carryOut c).1.answer, ⟨m.woken, (m.db.carryOut c).2⟩) := by
  cases c with
  | commit => cases hplain
  | abort => cases hplain
  | release => cases hplain
  | _ => rfl

/-- A command leaves no choice. -/
theorem Step.commanded {answer : Answer} (h : Step m (.command c answer) m') :
    m.commanded c = (answer, m') := by
  cases h with
  | busy c hbusy => exact if_pos hbusy
  | plain c hfree hplain => rw [Moment.commanded_of_free hfree, m.carriedOut_plain hplain]
  | commit t result d hfree hsettle =>
    rw [Moment.commanded_of_free hfree, Moment.carriedOut, hsettle]
  | commitFault t fault d hfree hsettle =>
    rw [Moment.commanded_of_free hfree, Moment.carriedOut, hsettle]
  | abort t hfree => exact Moment.commanded_of_free hfree
  | release t p hfree => exact Moment.commanded_of_free hfree

/-- Every command can be given at every moment. -/
theorem Moment.step_commanded (m : Moment) (c : Command) :
    Step m (.command c (m.commanded c).1) (m.commanded c).2 := by
  cases hfree : m.isBusy c with
  | true =>
    have hbusy : m.commanded c = (.busy, m) := if_pos hfree
    rw [hbusy]
    exact .busy c hfree
  | false =>
    rw [Moment.commanded_of_free hfree]
    cases hplain : c.releases with
    | false =>
      rw [m.carriedOut_plain hplain]
      exact .plain c hfree hplain
    | true =>
      cases c with
      | commit t =>
        rw [Moment.carriedOut]
        rcases hsettle : (onPool (Pool.settle t (m.db.locks.heldPages t))).on m.db with
          ⟨fault | result, d⟩
        · exact .commitFault t fault d hfree hsettle
        · exact .commit t result d hfree hsettle
      | abort t => exact .abort t hfree
      | release t p => exact .release t p hfree
      | _ => cases hplain

/-- An insertion that is asked for begins its turn at once. -/
theorem Moment.step_insert {t : TxnId} {table : TableId} {row : Row} {route : Route}
    (hfree : m.isBusy (.insert t table row route) = false) :
    Step m (.command (.insert t table row route)
        (answerOf (start (beginInsert t table row route) m.db).1))
      ⟨m.woken, (start (beginInsert t table row route) m.db).2⟩ := by
  obtain ⟨hanswer, hdb⟩ := answer_call m.db (beginInsert t table row route)
  rw [← hanswer, ← hdb]
  exact .plain _ hfree rfl

/-- Commands that are given one after the other, before any woken call has its turn. -/
def Moment.obeying (m : Moment) : List Command → List Occurrence × Moment
  | [] => ([], m)
  | c :: rest =>
    let (occurrences, m') := (m.commanded c).2.obeying rest
    (.command c (m.commanded c).1 :: occurrences, m')

theorem Moment.run_obeying (m : Moment) (commands : List Command) :
    Run m (m.obeying commands).1 (m.obeying commands).2 := by
  induction commands generalizing m with
  | nil => exact .nil
  | cons c rest ih => exact (Run.single (m.step_commanded c)).trans (ih (m.commanded c).2)

theorem Moment.turns_obeying (m : Moment) (commands : List Command) :
    (m.obeying commands).1.map Occurrence.turn = commands.map .command := by
  induction commands generalizing m with
  | nil => rfl
  | cons c rest ih => exact congrArg (List.cons (.command c)) (ih (m.commanded c).2)

theorem Moment.mem_of_obeying {answer : Answer} {commands : List Command}
    (h : .command c answer ∈ (m.obeying commands).1) : c ∈ commands := by
  have hturn := List.mem_map_of_mem (f := Occurrence.turn) h
  rw [m.turns_obeying] at hturn
  obtain ⟨c', hmem, heq⟩ := List.mem_map.mp hturn
  exact Turn.command.inj heq ▸ hmem

theorem Moment.not_resumed_obeying (m : Moment) (commands : List Command) (t : TxnId)
    (outcome : Option Outcome) : .resumed t outcome ∉ (m.obeying commands).1 := by
  intro hmem
  have hturn := List.mem_map_of_mem (f := Occurrence.turn) hmem
  rw [m.turns_obeying] at hturn
  obtain ⟨c, -, heq⟩ := List.mem_map.mp hturn
  cases heq

theorem Moment.orderlyRun_obeying {upkeep : Prop} {commands : List Command}
    (h : ∀ c ∈ commands, c.IsOrderly ∧ (c.Upkeep → upkeep)) (m : Moment) :
    OrderlyRun upkeep (m.obeying commands).1 :=
  fun c _ hmem => h c (m.mem_of_obeying hmem)

end PagedHeap
