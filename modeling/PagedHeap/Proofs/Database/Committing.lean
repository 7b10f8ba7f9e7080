import PagedHeap.Proofs.Database.Allowed
import PagedHeap.Proofs.Pool.Settling
import PagedHeap.Proofs.Pool.WriteAhead

/-!
# What comes of a commit

A commit attempts every page that its transaction holds and has changed.  Each page ends on one of
two sides, written and clean or dropped and as it was on disk, and the result tells on which; the
transaction is gone in either case.
-/

namespace PagedHeap

open Database

variable {m m' m'' : Moment} {t : TxnId} {answer : Answer}

/-- The pages that the transaction holds and has changed, in page order. -/
def Database.due (d : Database) (t : TxnId) : List Page :=
  d.pool.dirtied t (d.locks.heldPages t)

/-- What becomes of each of them when it is written back behind its record, by what the log says to
the calls made for it and by what the catalog and its store do; and the journal that this leaves. -/
def Database.fates (d : Database) (t : TxnId) : List (Page × Option Error) × Journal :=
  d.pool.disk.fates d.pool.journal (d.due t)

/-- Where a commit leads, and with which result. -/
structure Committed (wild : Prop) (t : TxnId) (m : Moment) (result : Except Error Unit)
    (m' : Moment) : Prop where
  due_iff : ∀ page, page ∈ m.db.due t ↔ t ∈ (m.db.locks.grantOf page.id).holders ∧
    m.db.pool.cachedPage? page.id = some page ∧ page.dirtier = some t
  due_ascending : (m.db.due t).Pairwise fun a b => rank a.id < rank b.id
  /-- Every page is attempted, in the order of the pages. -/
  attempted : (m.db.fates t).1.map Prod.fst = m.db.due t
  journal : m'.db.pool.journal = (m.db.fates t).2
  ok_iff : result = .ok () ↔ ∀ x ∈ (m.db.fates t).1, x.2 = none
  /-- The first failure is told, and all pages that failed. -/
  incomplete : ∀ first e,
    (m.db.fates t).1.find? (fun x => x.2.isSome) = some (first, some e) →
    result = .error (.commitIncomplete t
      (((m.db.fates t).1.filter fun x => x.2.isSome).map fun x => x.1.id) e)
  written : ∀ page, (page, none) ∈ (m.db.fates t).1 →
    m'.db.pool.cachedPage? page.id = some (Page.clean page.id page.image) ∧
      m'.db.pool.disk.block? page.id = some page.image ∧
      page.id.pageNo.toNat < m'.db.pool.disk.pages page.id.table
  lost : ∀ page e, (page, some e) ∈ (m.db.fates t).1 →
    m'.db.pool.cachedPage? page.id = none ∧
      m'.db.pool.disk.block? page.id = m.db.pool.disk.block? page.id
  others : ∀ id, (∀ page ∈ m.db.due t, page.id ≠ id) → m.db.pool.Spares m'.db.pool id
  /-- No file grows, unless it was cut from outside. -/
  pages_eq : ¬ wild → ∀ table, m'.db.pool.disk.pages table = m.db.pool.disk.pages table
  absent : m'.db.locks.Absent t
  heldPages : m'.db.locks.heldPages t = []

theorem LockTable.heldPages_nodup (l : LockTable) (t : TxnId) : (l.heldPages t).Nodup :=
  (SortedSet.toList_ascending _).imp fun {p q} hlt heq => by
    rw [heq] at hlt
    exact Nat.lt_irrefl _ hlt

/-- When settling is answered, there is one way for the commit to go. -/
theorem Step.commit_iff (hfree : m.isBusy (.commit t) = false) {failures : List (PageId × Error)}
    {p : Pool} (hon : (Pool.settle t (m.db.locks.heldPages t)).on m.db.pool =
      (.ok (.ok failures), p)) :
    Step m (.command (.commit t) answer) m'' ↔
      answer = .done (Pool.commitResult t failures) ∧
        m'' = Moment.letOff ⟨m.woken, m.db.withPool p⟩ t := by
  have hsettle : (onPool (Pool.settle t (m.db.locks.heldPages t))).on m.db =
      (.ok (.ok failures), m.db.withPool p) := by rw [on_onPool, hon]
  constructor
  · intro h
    generalize ho : Occurrence.command (.commit t) answer = o at h
    cases h with
    | busy c hbusy =>
      obtain ⟨rfl, -⟩ := Occurrence.command.inj ho
      cases hfree.symm.trans hbusy
    | plain c _ hplain =>
      obtain ⟨rfl, -⟩ := Occurrence.command.inj ho
      cases hplain
    | commit t' result d _ hsettle' =>
      obtain ⟨ht, rfl⟩ := Occurrence.command.inj ho
      obtain rfl := Command.commit.inj ht
      obtain ⟨hresult, rfl⟩ := Prod.mk.inj (hsettle.symm.trans hsettle')
      obtain rfl := Except.ok.inj hresult
      exact ⟨rfl, rfl⟩
    | commitFault t' fault d _ hsettle' =>
      exact absurd (congrArg Prod.fst hsettle') (Pool.settle_ne_fault t' _ m.db.pool fault)
    | _ => cases ho
  · rintro ⟨rfl, rfl⟩
    exact .commit t (.ok failures) _ hfree hsettle

theorem grounded_create (capacity : Nat) (journal : Journal) {disk : Disk} (hdisk : disk.Mounted) :
    (Database.create capacity journal disk).pool.Grounded where
  housed := (stable_create capacity journal (Or.inr hdisk)).housed
  listed := Buffer.listed_empty capacity
  within _ hid := nomatch hid

/-- Take any run, whatever may fail in it, and a transaction that does not sleep.  The log may say
yes to any of the calls that the commit makes and no to the others, and stores may fail at any
pages. -/
theorem commit_outcome {wild : Prop} {capacity : Nat} {journal : Journal} {disk : Disk}
    {occurrences : List Occurrence} (hdisk : wild ∨ disk.Mounted)
    (hrun : AllowedRun wild ⟨[], Database.create capacity journal disk⟩ occurrences m)
    (hfree : m.isBusy (.commit t) = false) :
    ∃ result m', (∀ answer m'', Step m (.command (.commit t) answer) m'' ↔
      answer = .done result ∧ m'' = m') ∧ Committed wild t m result m' := by
  have hstart := stable_create capacity journal hdisk
  have hstable := hrun.stable hstart
  have hframed := hstable.housed.framed
  have hbooked := hstable.locks.booked
  obtain ⟨p, hon, hsettled⟩ := Pool.on_settle hframed (m.db.locks.heldPages_nodup t)
  have habsent := hbooked.absent_releaseAll t
  have hdue : ∀ page, page ∈ m.db.due t ↔
      page.id ∈ m.db.locks.heldPages t ∧ m.db.pool.dirtied? t page.id = some page :=
    fun page => Pool.mem_dirtied hframed
  refine ⟨_, _, fun answer m'' => Step.commit_iff hfree hon, ?_⟩
  constructor
  case due_iff =>
    intro page
    rw [hdue, Pool.dirtied?_eq_some, hbooked.held_iff]
  case due_ascending => exact Pool.dirtied_ascending hframed t (SortedSet.toList_ascending _)
  case attempted => exact Disk.pages_fates _ _ _
  case journal => exact hsettled.journal
  case ok_iff => exact Pool.commitResult_eq_ok
  case incomplete => exact fun first e => Pool.commitResult_of_failed
  case written => exact hsettled.written
  case lost => exact hsettled.lost
  case others => exact hsettled.others
  case pages_eq =>
    intro hwild
    rw [eq_false hwild] at hrun hdisk hstart
    obtain ⟨ds, hcourse⟩ := hrun.course hstart
    have hgrounded := hcourse.grounded
      (grounded_create capacity journal (hdisk.resolve_left not_false))
    refine hsettled.pages_eq fun page hpage => hgrounded.within page.id ?_
    obtain ⟨f, hf, -⟩ := Buffer.cachedPage?_eq_some.mp
      (Pool.dirtied?_eq_some.mp ((hdue page).mp hpage).2).1
    exact (hgrounded.listed.mem_iff page.id).mpr (Buffer.isCached_iff.mpr ⟨f, hf⟩)
  case absent => exact habsent
  case heldPages => exact (hbooked.after (.releaseAll t)).heldPages_eq_nil habsent.holder

def threeTables : Disk :=
  (((∅ : Disk).addTable ⟨1⟩).addTable ⟨2⟩).addTable ⟨3⟩

/-- A row goes to each of three tables.  Then the log is to refuse its second call, and the device
of the second table to fail. -/
def failingApart : List Command :=
  [.insert ⟨1⟩ ⟨1⟩ [7] .tracked, .insert ⟨1⟩ ⟨2⟩ [8] .tracked, .insert ⟨1⟩ ⟨3⟩ [9] .tracked,
    .setVerdicts fun n _ => if n = 1 then some (.log "force refused") else none,
    .setFaults ⟨2⟩ { unwritable := [0] }]

/-- The first page fails for the log, the second one for its device, and the third one is
written. -/
theorem commit_outcome_failingApart :
    ∃ occurrences m, AllowedRun False ⟨[], Database.create 3 .fresh threeTables⟩ occurrences m ∧
      m.isBusy (.commit ⟨1⟩) = false ∧
      (m.db.fates ⟨1⟩).1.map (fun x => (x.1.id, x.2)) =
        [(⟨⟨1⟩, 0⟩, some (.log "force refused")), (⟨⟨2⟩, 0⟩, some (.device "disk full")),
          (⟨⟨3⟩, 0⟩, none)] ∧
      ∃ m', (∀ answer m'', Step m (.command (.commit ⟨1⟩) answer) m'' ↔
          answer = .done (.error (.commitIncomplete ⟨1⟩ [⟨⟨1⟩, 0⟩, ⟨⟨2⟩, 0⟩]
            (.log "force refused"))) ∧ m'' = m') ∧
        Committed False ⟨1⟩ m (.error (.commitIncomplete ⟨1⟩ [⟨⟨1⟩, 0⟩, ⟨⟨2⟩, 0⟩]
          (.log "force refused"))) m' := by
  have hdisk := ((Disk.mounted_empty.addTable ⟨1⟩).addTable ⟨2⟩).addTable ⟨3⟩
  have htame : ∀ c ∈ failingApart, c.IsTame := by simp [failingApart, Command.IsTame]
  obtain ⟨occurrences, hallowed⟩ := AllowedRun.of_performAll False
    (Database.create 3 .fresh threeTables) htame
  obtain ⟨d, hd⟩ : ∃ d, d = (performAll failingApart (Database.create 3 .fresh threeTables)).2 :=
    ⟨_, rfl⟩
  rw [← hd] at hallowed
  have hfates : (d.fates ⟨1⟩).1.map (fun x => (x.1.id, x.2)) =
      [(⟨⟨1⟩, 0⟩, some (.log "force refused")), (⟨⟨2⟩, 0⟩, some (.device "disk full")),
        (⟨⟨3⟩, 0⟩, none)] := by
    rw [hd]
    decide +kernel
  have hfree : (⟨[], d⟩ : Moment).isBusy (.commit ⟨1⟩) = false := by
    rw [hd]
    decide +kernel
  obtain ⟨result, m', hstep, hcommitted⟩ := commit_outcome (Or.inr hdisk) hallowed hfree
  have hresult : result = .error (.commitIncomplete ⟨1⟩ [⟨⟨1⟩, 0⟩, ⟨⟨2⟩, 0⟩]
      (.log "force refused")) := by
    have hincomplete := hcommitted.incomplete
    simp only at hincomplete
    generalize (d.fates ⟨1⟩).1 = fates at hfates hincomplete
    rcases fates with _ | ⟨⟨page₁, _⟩, _ | ⟨⟨page₂, _⟩, _ | ⟨⟨page₃, _⟩, _ | _⟩⟩⟩ <;>
      simp at hfates
    obtain ⟨⟨hid₁, rfl⟩, ⟨hid₂, rfl⟩, -, rfl⟩ := hfates
    rw [hincomplete page₁ _ rfl, ← hid₁, ← hid₂]
    rfl
  subst hresult
  exact ⟨occurrences, _, hallowed, hfree, hfates, m', hstep, hcommitted⟩

end PagedHeap
