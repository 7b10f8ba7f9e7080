import PagedHeap.Proofs.Database.Deeds
import PagedHeap.Proofs.Lock.Waking

/-!
# Runs in which anything may happen

Pages may be dropped and locks given up at any time, and whatever can fail may fail.  What a step
does to the pool comes down to deeds: which ones is told by the command, and by the call that goes
on.  While a call sleeps it has no frame in hand, unless its store has business with a changed page.
-/

namespace PagedHeap

open Database

/-- Nothing is done to stores, files and pages past the pool. -/
def Command.IsTame : Command → Prop
  | .edit _ _ => False
  | .implant _ _ => False
  | .setDetours _ _ => False
  | .resizeFile _ _ => False
  | .patchFile _ _ _ => False
  | .reopen _ => False
  | _ => True

/-- The handle under which the command keeps the page that it fetches. -/
def Command.keeps? : Command → Option HandleId
  | .fetch _ _ _ keep => keep
  | _ => none

namespace Moment

/-- What may happen in a run.  A page that is overwritten in memory remains the page that it is. -/
def Allows (wild : Prop) (m : Moment) : Occurrence → Prop
  | .command (.reopen _) _ => False
  | .command (.edit handle page) _ =>
    wild ∧ ∀ f, m.db.kept? handle = some f → page.id = (m.db.pool.page f).id
  | .command c _ => wild ∨ c.IsTame
  | .resumed _ _ => True

/-- The losses that a step may bring about. -/
def Loses (wild : Prop) (m : Moment) (o : Occurrence) (id : PageId) : Loss → Prop
  | .discarded => ∃ answer, o = .command (.discard id) answer
  | .dismissed => wild
  | .aborted t => (∃ answer, o = .command (.abort t) answer) ∧ id ∈ m.db.locks.heldPages t
  | .unwritten t => (∃ answer, o = .command (.commit t) answer) ∧ id ∈ m.db.locks.heldPages t

/-- The transaction whose turn the step is. -/
def turn? (m : Moment) : Occurrence → Option TxnId
  | .command c _ => if m.isBusy c then none else (m.db.begun? c).map Prod.fst
  | .resumed t _ => some t

/-- The handle that the step keeps a page under, if the page can be fetched. -/
def keeps? (m : Moment) : Occurrence → Option HandleId
  | .command c _ => c.keeps?
  | .resumed t _ => (m.db.calls.get? t).bind Call.keeps?

/-- A page is to be kept under the handle, or the handle is dropped. -/
def Concerns (m : Moment) (h : HandleId) (o : Occurrence) : Prop :=
  m.keeps? o = some h ∨ ∃ answer, o = .command (.dropHandle h) answer

/-- What a step may do to the pool.  No step both uses pages and writes some back. -/
def May (wild : Prop) (m : Moment) (o : Occurrence) : Deed → Prop
  | .lost id why => m.Loses wild o id why
  | .wrote _ => m.uses o = []
  | .edited => m.uses o = []
  | .pinned (.handle h) => m.Concerns h o
  | .pinned (.operation t) => m.turn? o = some t
  | _ => True

/-- What is true of a database at every moment of a run. -/
structure Stable (wild : Prop) (m : Moment) : Prop where
  housed : m.db.pool.Housed wild
  calls : ∀ t c, m.db.calls.get? t = some c → c.GoesOn wild True t c.keeps? m.db
  /-- A call sleeps, or has been woken. -/
  waits : ∀ t c, m.db.calls.get? t = some c → ∃ r ∈ m.woken ++ m.db.locks.sleepers, r.txn = t
  /-- Who has no call has no frame in hand. -/
  idle : ∀ t, m.db.calls.get? t = none → m.db.inHand? t = none
  locks : m.db.locks.Arises

variable {wild : Prop} {t : TxnId} {m : Moment} {o : Occurrence} {deed : Deed}

theorem may_of_call (hturn : m.turn? o = some t) (hdeed : deed.OfCall wild t (m.keeps? o)) :
    m.May wild o deed := by
  cases deed with
  | lost id why =>
    obtain ⟨hwild, rfl⟩ := hdeed
    exact hwild
  | pinned who =>
    cases who with
    | handle h => exact Or.inl hdeed
    | operation u =>
      obtain rfl : u = t := hdeed
      exact hturn
  | wrote r => exact hdeed.elim
  | edited => exact hdeed.elim
  | _ => exact trivial

theorem may_of_upkeep (hidle : m.uses o = []) (hdeed : deed.OfUpkeep (m.Loses wild o)) :
    m.May wild o deed := by
  cases deed with
  | lost id why => exact hdeed
  | wrote r => exact hidle
  | other => exact trivial
  | _ => exact hdeed.elim

theorem allows_of_isTame {c : Command} (h : c.IsTame) (m : Moment) (answer : Answer) :
    m.Allows wild (.command c answer) := by
  cases c with
  | edit => exact h.elim
  | implant => exact h.elim
  | setDetours => exact h.elim
  | resizeFile => exact h.elim
  | patchFile => exact h.elim
  | reopen => exact h.elim
  | _ => exact Or.inr trivial

theorem aside {cmd : Command} (h : m.db.begun? cmd = none) (answer : Answer) :
    m.turn? (.command cmd answer) = none ∧ m.uses (.command cmd answer) = [] := by
  rw [turn?, uses, usesOfCommand, h, Option.map_none]
  exact ⟨ite_self none, ite_self []⟩

theorem Stable.call_eq_none (hm : m.Stable wild)
    (hawake : ∀ r ∈ m.woken ++ m.db.locks.sleepers, r.txn ≠ t) : m.db.calls.get? t = none := by
  cases hget : m.db.calls.get? t with
  | none => rfl
  | some c =>
    obtain ⟨r, hr, htxn⟩ := hm.waits t c hget
    exact absurd htxn (hawake r hr)

end Moment

/-! ## Steps -/

/-- What a step has done, and how it leaves the database. -/
structure Progressed (wild : Prop) (m : Moment) (o : Occurrence) (m' : Moment) : Prop where
  pool : Pool.LeadsTo wild (m.May wild o) (m.uses o) m.db.pool m'.db.pool
  stable : m'.Stable wild

variable {wild : Prop} {may : Deed → Prop} {keep : Option HandleId} {used : List PageId}
  {d d' : Database} {t u : TxnId} {m m' : Moment} {o : Occurrence} {c : Call} {cmd : Command}
  {act : Act Database Progress}

/-- What others do is nothing to a call. -/
theorem Call.GoesOn.of_others (hc : c.GoesOn wild True t keep d) (hd : d.pool.Housed wild)
    (hpool : Pool.LeadsTo wild may used d.pool d'.pool)
    (hcursors : ∀ id cursor, d.cursors.get? id = some cursor → cursor.txn = t →
      ∃ cursor', d'.cursors.get? id = some cursor' ∧ cursor'.txn = t)
    (hmay : ¬ may (.pinned (.operation t))) : c.GoesOn wild True t keep d' where
  txn := hc.txn
  fits := hc.fits.mono (hpool.frames_le hd) fun _ hf => hpool.id_page hd hf
  keeps := hc.keeps
  scans id harvest herrand := by
    obtain ⟨cursor, hget, htxn⟩ := hc.scans id harvest herrand
    exact hcursors id cursor hget htxn
  inHand _ := (hpool.holders hd hmay).trans (hc.inHand trivial)

theorem CursorsKept.txn (h : CursorsKept d d') (id : CursorId) (cursor : Cursor)
    (hget : d.cursors.get? id = some cursor) (htxn : cursor.txn = t) :
    ∃ cursor', d'.cursors.get? id = some cursor' ∧ cursor'.txn = t := by
  obtain ⟨cursor', hget', halike⟩ := h id cursor hget
  exact ⟨cursor', hget', halike.txn.trans htxn⟩

namespace Progressed

/-- The turn of a transaction that has no call, or has just been woken. -/
theorem of_turn (hm : m.Stable wild) (hturn : m.turn? o = some t) {calls : SortedMap TxnId Call}
    (hnone : calls.get? t = none) (hcalls : ∀ u, u ≠ t → calls.get? u = m.db.calls.get? u)
    {woken : List LockRequest} (hwoken : ∀ r ∈ m.woken, r.txn ≠ t → r ∈ woken)
    {x : Option Outcome × Database}
    (h : TookTurn wild True t (m.keeps? o) (m.uses o) { m.db with calls } x) :
    Progressed wild m o ⟨woken, x.2⟩ := by
  obtain ⟨hlocks, hcursors, hpool, hrests⟩ := h
  obtain ⟨outcome, d'⟩ := x
  have hothers : ∀ u, u ≠ t → ¬ Deed.OfCall wild t (m.keeps? o) (.pinned (.operation u)) :=
    fun u hne => hne
  -- Whoever else has a call or sleeps does so as before, whether t has ended or fallen asleep.
  have hcall : ∀ u, u ≠ t → d'.calls.get? u = m.db.calls.get? u := by
    intro u hne
    cases hrests with
    | ended _ hsame _ _ => rw [hsame, ← hcalls u hne]
    | asleep c hsame _ _ =>
      rw [hsame, SortedMap.get?_insert_of_ne _ c (Ne.symm hne), ← hcalls u hne]
  have hsleepers : ∀ r ∈ m.db.locks.sleepers, r ∈ d'.locks.sleepers := by
    intro r hr
    cases hrests with
    | ended _ _ hsame _ => exact hsame ▸ hr
    | asleep c _ hsame _ => exact hsame ▸ List.mem_append_left _ hr
  refine ⟨hpool.mono fun _ => Moment.may_of_call hturn, ?_⟩
  constructor
  case housed => exact hpool.housed hm.housed
  case calls =>
    intro u c hget
    by_cases hu : u = t
    · subst hu
      cases hrests with
      | ended _ hsame _ _ => cases hnone.symm.trans (hsame ▸ hget)
      | asleep c' hsame _ hc =>
        rw [hsame, SortedMap.get?_insert_self] at hget
        exact Option.some.inj hget ▸ hc
    · rw [hcall u hu] at hget
      exact (hm.calls u c hget).of_others hm.housed hpool hcursors.txn (hothers u hu)
  case waits =>
    intro u c hget
    by_cases hu : u = t
    · subst hu
      cases hrests with
      | ended _ hsame _ _ => cases hnone.symm.trans (hsame ▸ hget)
      | asleep c' _ hsame hc =>
        refine ⟨c'.request, ?_, hc.txn⟩
        rw [hsame]
        exact List.mem_append_right _ (List.mem_append_right _ List.mem_cons_self)
    · rw [hcall u hu] at hget
      obtain ⟨r, hr, htxn⟩ := hm.waits u c hget
      refine ⟨r, ?_, htxn⟩
      rcases List.mem_append.mp hr with hr | hr
      · exact List.mem_append_left _ (hwoken r hr (htxn ▸ hu))
      · exact List.mem_append_right _ (hsleepers r hr)
  case idle =>
    intro u hget
    by_cases hu : u = t
    · subst hu
      cases hrests with
      | ended _ _ _ hhand => exact hhand trivial
      | asleep c hsame _ _ =>
        rw [hsame, SortedMap.get?_insert_self] at hget
        cases hget
    · rw [hcall u hu] at hget
      exact (hpool.holders hm.housed (hothers u hu)).trans (hm.idle u hget)
  case locks =>
    obtain ⟨cs, hlocks⟩ := hlocks
    exact hlocks ▸ hm.locks.afterAll cs

/-- A step that is nobody's turn.  It may wake calls. -/
theorem of_aside (hm : m.Stable wild) (hturn : m.turn? o = none)
    (hpool : Pool.LeadsTo wild (m.May wild o) (m.uses o) m.db.pool m'.db.pool)
    (hcalls : m'.db.calls = m.db.calls)
    (hwaiting : ∀ r ∈ m.woken ++ m.db.locks.sleepers, r ∈ m'.woken ++ m'.db.locks.sleepers)
    (hcursors : ∀ r ∈ m.woken ++ m.db.locks.sleepers, ∀ id cursor,
      m.db.cursors.get? id = some cursor → cursor.txn = r.txn →
        ∃ cursor', m'.db.cursors.get? id = some cursor' ∧ cursor'.txn = r.txn)
    (hlocks : m'.db.locks.Arises) : Progressed wild m o m' := by
  have hmay : ∀ u, ¬ m.May wild o (.pinned (.operation u)) := fun u hturn' => by
    cases hturn.symm.trans hturn'
  refine ⟨hpool, ?_⟩
  constructor
  case housed => exact hpool.housed hm.housed
  case calls =>
    intro u c hget
    rw [hcalls] at hget
    obtain ⟨r, hr, rfl⟩ := hm.waits u c hget
    exact (hm.calls r.txn c hget).of_others hm.housed hpool (hcursors r hr) (hmay r.txn)
  case waits =>
    intro u c hget
    rw [hcalls] at hget
    obtain ⟨r, hr, htxn⟩ := hm.waits u c hget
    exact ⟨r, hwaiting r hr, htxn⟩
  case idle =>
    intro u hget
    rw [hcalls] at hget
    exact (hpool.holders hm.housed (hmay u)).trans (hm.idle u hget)
  case locks => exact hlocks

theorem of_worked (hm : m.Stable wild) (hturn : m.turn? o = none)
    (h : Worked wild (m.May wild o) (m.uses o) m.db d) : Progressed wild m o ⟨m.woken, d⟩ :=
  of_aside hm hturn h.pool h.calls (fun _ hr => h.locks ▸ hr) (fun _ _ => h.cursors.txn)
    (h.locks ▸ hm.locks)

/-- Locks are released at the end of a step; whom that wakes waits on. -/
theorem of_released (hm : m.Stable wild) (hturn : m.turn? o = none)
    (h : Worked wild (m.May wild o) (m.uses o) m.db d) {woken : List LockRequest}
    {locks : LockTable}
    (hmem : ∀ r, r ∈ woken ∨ r ∈ locks.sleepers ↔ r ∈ m.db.locks.sleepers)
    (hlocks : locks.Arises) : Progressed wild m o ⟨m.woken ++ woken, { d with locks }⟩ := by
  refine of_aside hm hturn h.pool h.calls (fun r hr => ?_) (fun _ _ => h.cursors.txn) hlocks
  rw [List.append_assoc, List.mem_append, List.mem_append]
  exact (List.mem_append.mp hr).imp_right (hmem r).mpr

end Progressed

/-! ## Calls that begin -/

theorem carryOut_of_begun (h : d.begun? cmd = some (t, act)) : d.carryOut cmd = d.call act := by
  have hscan : ∀ {cursor : CursorId} {harvest : Harvest},
      (d.cursors.get? cursor).map (fun c => (c.txn, scanFrom cursor c harvest)) = some (t, act) →
        d.scan cursor harvest = d.call act := by
    intro cursor harvest h
    obtain ⟨c, hget, heq⟩ := Option.map_eq_some_iff.mp h
    obtain ⟨-, rfl⟩ := Prod.mk.inj heq
    rw [scan, hget]
  cases cmd with
  | fetch _ _ _ _ => exact (Prod.mk.inj (Option.some.inj h)).2 ▸ rfl
  | insert _ _ _ _ => exact (Prod.mk.inj (Option.some.inj h)).2 ▸ rfl
  | delete _ _ _ _ => exact (Prod.mk.inj (Option.some.inj h)).2 ▸ rfl
  | next cursor => exact hscan h
  | rest cursor => exact hscan h
  | _ => cases h

theorem awake_of_begun (h : m.db.begun? cmd = some (t, act)) (hfree : m.isBusy cmd = false) :
    ∀ r ∈ m.woken ++ m.db.locks.sleepers, r.txn ≠ t := by
  have hscan : ∀ {cursor : CursorId} {harvest : Harvest},
      (m.db.cursors.get? cursor).map (fun c => (c.txn, scanFrom cursor c harvest)) = some (t, act) →
      Database.rests { m.db with
        locks := { m.db.locks with sleepers := m.woken ++ m.db.locks.sleepers } } cursor = false →
      ∀ r ∈ m.woken ++ m.db.locks.sleepers, r.txn ≠ t := by
    intro cursor harvest h hrests
    obtain ⟨c, hget, heq⟩ := Option.map_eq_some_iff.mp h
    obtain ⟨rfl, -⟩ := Prod.mk.inj heq
    exact Moment.awake_of_rests hrests c hget
  cases cmd with
  | fetch _ _ _ _ =>
    obtain ⟨rfl, -⟩ := Prod.mk.inj (Option.some.inj h)
    exact LockTable.isAsleep_eq_false.mp hfree
  | insert _ _ _ _ =>
    obtain ⟨rfl, -⟩ := Prod.mk.inj (Option.some.inj h)
    exact LockTable.isAsleep_eq_false.mp hfree
  | delete _ _ _ _ =>
    obtain ⟨rfl, -⟩ := Prod.mk.inj (Option.some.inj h)
    exact LockTable.isAsleep_eq_false.mp hfree
  | next cursor => exact hscan h hfree
  | rest cursor => exact hscan h hfree
  | _ => cases h

theorem works_begun (hd : d.pool.Housed wild) (hhand : d.inHand? t = none)
    (h : d.begun? cmd = some (t, act)) :
    Works wild Deed.OfRows (fun _ => []) (Progress.FitsIdly wild True t cmd.keeps?) d act := by
  have hscan : ∀ {keep : Option HandleId} {cursor : CursorId} {harvest : Harvest},
      (d.cursors.get? cursor).map (fun c => (c.txn, scanFrom cursor c harvest)) = some (t, act) →
        Works wild Deed.OfRows (fun _ => []) (Progress.FitsIdly wild True t keep) d act := by
    intro keep cursor harvest h
    obtain ⟨c, hget, heq⟩ := Option.map_eq_some_iff.mp h
    obtain ⟨htxn, rfl⟩ := Prod.mk.inj heq
    exact works_scanFrom hget htxn (fun _ => hhand) (.refl c) harvest
  cases cmd with
  | fetch t' page mode keep =>
    obtain ⟨rfl, rfl⟩ := Prod.mk.inj (Option.some.inj h)
    exact .of_pure ⟨Call.goesOn (fun _ _ _ h => by cases h) rfl (fun _ h => h)
      (fun _ _ h => by cases h) fun _ => hhand, fun _ => rfl⟩ rfl
  | insert t' table row route =>
    obtain ⟨rfl, rfl⟩ := Prod.mk.inj (Option.some.inj h)
    exact works_beginInsert hd (fun _ => hhand) table row route
  | delete t' table rid route =>
    obtain ⟨rfl, rfl⟩ := Prod.mk.inj (Option.some.inj h)
    exact works_beginDelete (fun _ => hhand) table rid route
  | next cursor => exact hscan h
  | rest cursor => exact hscan h
  | _ => cases h

theorem progressed_begun (hm : m.Stable wild) (h : m.db.begun? cmd = some (t, act))
    (hfree : m.isBusy cmd = false) {answer : Answer} :
    Progressed wild m (.command cmd answer) ⟨m.woken, (m.db.carryOut cmd).2⟩ := by
  have hnone := hm.call_eq_none (awake_of_begun h hfree)
  have hhand := hm.idle t hnone
  have hused : m.uses (.command cmd answer) = usesOfStart act m.db := by
    simp only [Moment.uses, hfree, usesOfCommand, h]
    rfl
  have hturn : m.turn? (.command cmd answer) = some t := by
    simp only [Moment.turn?, hfree, h]
    rfl
  have htook := took_start hm.housed (fun _ => hhand) (works_begun hm.housed hhand h)
  rw [carryOut_of_begun h, (answer_call m.db act).2]
  rw [← hused] at htook
  exact .of_turn hm hturn hnone (fun _ _ => rfl) (fun _ hr _ => hr) htook

/-! ## Commands that are nobody's turn -/

theorem worked_atOnce {act : Act Pool Unit}
    (h : Pool.LeadsTo wild may [] d.pool (act.on d.pool).2) :
    Worked wild may [] d (d.atOnce act).2 := by
  have hworked : Worked wild may [] d (d.withPool (act.on d.pool).2) := .onPool h
  rw [atOnce, on_onPool]
  generalize act.on d.pool = x at hworked ⊢
  rcases x with ⟨fault | result, p⟩
  · exact hworked
  · exact hworked

theorem worked_arrange {p : Pool} (hbuffer : p.buffer = d.pool.buffer)
    (hdisk : wild ∨ d.pool.disk.Alike p.disk)
    (hjournal : p.journal.entries = d.pool.journal.entries) (hmay : may .other) :
    Worked wild may [] d (d.withPool p) :=
  .onPool (Pool.leadsTo_arrange hbuffer hdisk hjournal hmay)

theorem worked_inspect (d : Database) (table : TableId) (page : PageId) (hmay : may .other) :
    Worked wild may [] d (d.inspect table page).2 := by
  rw [Database.inspect, (answer_call d _).2, start, on_onPool]
  simp only [Act.on_bind, Act.on_get]
  cases hs : d.pool.disk.store? table with
  | none => exact .refl d
  | some store =>
    simp only [Act.on_bind, Act.on_ofResult]
    cases hread : store.read page with
    | error e => exact .refl d
    | ok found =>
      have hsame := (Disk.SameFiles.put hs (Disk.file_read hread)).alike
      exact worked_arrange rfl (Or.inr hsame) rfl hmay

theorem worked_update (d : Database) (table : TableId) {f : Store → Store}
    (hf : wild ∨ ∀ s, (f s).file = s.file) (hmay : may .other) :
    Worked wild may [] d (d.updateStore table f) :=
  worked_arrange rfl (hf.imp id fun hsame => (Disk.SameFiles.update _ table hsame).alike) rfl hmay

theorem worked_implant (hwild : wild) (table : TableId) (page : Page) (hmay : may .other) :
    Worked wild may [] d (d.implant table page).2 := by
  refine worked_atOnce ?_
  simp only [Act.on_bind, Act.on_get]
  split
  case h_1 => exact .refl _
  case h_2 store _ =>
    simp only [Act.on_bind, Act.on_ofResult]
    cases store.write page with
    | error e => exact .refl _
    | ok store' => exact Pool.leadsTo_arrange rfl (Or.inl hwild) rfl hmay

theorem worked_edit (hwild : wild) (handle : HandleId) {page : Page}
    (hid : ∀ f, d.kept? handle = some f → page.id = (d.pool.page f).id) (hmay : may .edited) :
    Worked wild may [] d (d.edit handle page) := by
  rw [edit]
  split
  case h_1 f hf => exact .does (.edit f page hwild (hid f hf)) hmay
  case h_2 => exact .refl d

theorem worked_scan_none {cursor : CursorId} (hget : d.cursors.get? cursor = none)
    (harvest : Harvest) : Worked wild may [] d (d.scan cursor harvest).2 := by
  rw [scan, hget]
  simp only [(answer_call d _).2, start, Act.on_bind, Act.on_ofResult]
  cases harvested harvest none with
  | error e => exact .refl d
  | ok reply => exact .refl d

theorem worked_aside (hnone : m.db.begun? cmd = none) (hplain : cmd.releases = false)
    (hopens : ∀ cursor t table, cmd ≠ .openCursor cursor t table) {answer : Answer}
    (hidle : m.uses (.command cmd answer) = []) (hallows : m.Allows wild (.command cmd answer)) :
    Worked wild (m.May wild (.command cmd answer)) [] m.db (m.db.carryOut cmd).2 := by
  have hupkeep : ∀ deed : Deed, deed.OfUpkeep (m.Loses wild (.command cmd answer)) →
      m.May wild (.command cmd answer) deed := fun _ => Moment.may_of_upkeep hidle
  cases cmd with
  | fetch t page mode keep => cases hnone
  | insert t table row route => cases hnone
  | delete t table rid route => cases hnone
  | commit t => cases hplain
  | abort t => cases hplain
  | release t page => cases hplain
  | flushAll => exact worked_atOnce ((Pool.flushAll_leadsTo _).mono hupkeep)
  | flushPage page => exact worked_atOnce ((Pool.flushPage_leadsTo page _).mono hupkeep)
  | flushOwned t => exact worked_atOnce ((Pool.flushOwned_leadsTo t _ _).mono hupkeep)
  | discard page =>
    exact .does (.lose page .discarded ⟨answer, rfl⟩) ⟨answer, rfl⟩
  | openCursor cursor t table => exact absurd rfl (hopens cursor t table)
  | rewindCursor cursor => exact .updateCursor m.db cursor fun _ => ⟨rfl, rfl⟩
  | closeCursor cursor => exact .updateCursor m.db cursor fun _ => ⟨rfl, rfl⟩
  | next cursor => exact worked_scan_none (Option.map_eq_none_iff.mp hnone) .next
  | rest cursor => exact worked_scan_none (Option.map_eq_none_iff.mp hnone) (.rest [])
  | edit handle page => exact worked_edit hallows.1 handle hallows.2 hidle
  | dropHandle handle => exact .letGo m.db _ (Or.inr ⟨answer, rfl⟩)
  | inspect table page => exact worked_inspect m.db table page trivial
  | implant table page => exact worked_implant (hallows.resolve_right id) table page trivial
  | setFaults table faults => exact worked_update m.db table (Or.inr fun _ => rfl) trivial
  | setDetours table detours =>
    exact worked_update m.db table (Or.inl (hallows.resolve_right id)) trivial
  | setVerdicts verdicts =>
    exact worked_arrange rfl (Or.inr (Disk.SameFiles.refl _).alike) rfl trivial
  | addTable table => exact worked_arrange rfl (Or.inr (Disk.alike_addTable _ table)) rfl trivial
  | removeTable table =>
    exact worked_arrange rfl (Or.inr (Disk.alike_removeTable _ table)) rfl trivial
  | resizeFile table length =>
    exact worked_update m.db table (Or.inl (hallows.resolve_right id)) trivial
  | patchFile table start bytes =>
    exact worked_update m.db table (Or.inl (hallows.resolve_right id)) trivial
  | reopen capacity => exact hallows.elim

/-- A cursor is not opened anew for whom it keeps a call waiting. -/
theorem progressed_openCursor (hm : m.Stable wild) {cursor : CursorId} {t : TxnId} {table : TableId}
    (hfree : m.isBusy (.openCursor cursor t table) = false) (answer : Answer) :
    Progressed wild m (.command (.openCursor cursor t table) answer)
      ⟨m.woken, (m.db.carryOut (.openCursor cursor t table)).2⟩ := by
  obtain ⟨hturn, hidle⟩ : _ ∧ m.uses (.command (.openCursor cursor t table) answer) = [] :=
    Moment.aside rfl answer
  have hrests := Moment.awake_of_rests (Bool.or_eq_false_iff.mp hfree).2
  refine .of_aside hm hturn (hidle ▸ .refl _) rfl (fun _ hr => hr) (fun r hr id old hold htxn => ?_)
    hm.locks
  by_cases heq : cursor = id
  · subst heq
    exact absurd htxn.symm (hrests old hold r hr)
  · exact ⟨old, (SortedMap.get?_insert_of_ne m.db.cursors _ heq).trans hold, htxn⟩

theorem progressed_carryOut (hm : m.Stable wild) (hfree : m.isBusy cmd = false)
    (hplain : cmd.releases = false) {answer : Answer}
    (hallows : m.Allows wild (.command cmd answer)) :
    Progressed wild m (.command cmd answer) ⟨m.woken, (m.db.carryOut cmd).2⟩ := by
  cases hbegun : m.db.begun? cmd with
  | some begun => exact progressed_begun hm hbegun hfree
  | none =>
    by_cases hopens : ∃ cursor t table, cmd = .openCursor cursor t table
    · obtain ⟨cursor, t, table, rfl⟩ := hopens
      exact progressed_openCursor hm hfree answer
    · obtain ⟨hturn, hidle⟩ := Moment.aside hbegun answer
      refine .of_worked hm hturn (hidle.symm ▸ worked_aside hbegun hplain ?_ hidle hallows)
      exact fun cursor t table heq => hopens ⟨cursor, t, table, heq⟩

/-! ## All steps -/

theorem Step.progressed (h : Step m o m') (hm : m.Stable wild) (hallows : m.Allows wild o) :
    Progressed wild m o m' := by
  have hsettled : ∀ answer t, Worked wild (m.May wild (.command (.commit t) answer)) [] m.db
      (m.db.withPool ((Pool.settle t (m.db.locks.heldPages t)).on m.db.pool).2) := fun answer t =>
    .onPool ((Pool.settle_leadsTo t _ m.db.pool fun id hid => ⟨⟨answer, rfl⟩, hid⟩).mono
      fun _ => Moment.may_of_upkeep (ite_self []))
  cases h with
  | busy c hbusy =>
    have hidle : m.uses (.command c .busy) = [] := if_pos hbusy
    have hturn : m.turn? (.command c .busy) = none := if_pos hbusy
    exact .of_worked hm hturn (hidle.symm ▸ .refl m.db)
  | plain c hfree hplain => exact progressed_carryOut hm hfree hplain hallows
  | commit t result d _ hsettle =>
    have hworked := hsettled (.done (result.bind (Pool.commitResult t))) t
    obtain ⟨-, rfl⟩ := Prod.mk.inj ((on_onPool _ _).symm.trans hsettle)
    obtain ⟨hturn, hidle⟩ : _ ∧ m.uses (.command (.commit t) _) = [] := Moment.aside rfl _
    exact .of_released hm hturn (hidle.symm ▸ hworked)
      (fun r => LockTable.mem_releaseAll m.db.locks t) (hm.locks.afterAll [.releaseAll t])
  | commitFault t fault d _ hsettle =>
    exact absurd (congrArg Prod.fst hsettle) (Pool.settle_ne_fault t _ m.db.pool fault)
  | abort t _ =>
    obtain ⟨hturn, hidle⟩ : _ ∧ m.uses (.command (.abort t) (.done (.ok ()))) = [] :=
      Moment.aside rfl _
    have hforgotten : Worked wild (m.May wild (.command (.abort t) (.done (.ok ())))) [] m.db
        (m.db.withPool (m.db.pool.forget (m.db.locks.heldPages t))) :=
      .onPool ((Pool.forget_leadsTo t _ _ fun id hid => ⟨⟨_, rfl⟩, hid⟩).mono
        fun _ => Moment.may_of_upkeep hidle)
    exact .of_released hm hturn (hidle.symm ▸ hforgotten)
      (fun r => LockTable.mem_releaseAll m.db.locks t) (hm.locks.afterAll [.releaseAll t])
  | release t p _ =>
    obtain ⟨hturn, hidle⟩ : _ ∧ m.uses (.command (.release t p) (.done (.ok ()))) = [] :=
      Moment.aside rfl _
    exact .of_released hm hturn (hidle.symm ▸ .refl m.db)
      (fun r => LockTable.mem_release m.db.locks t p) (hm.locks.afterAll [.release t p])
  | resume r hr =>
    have hwoken : ∀ r' ∈ m.woken, r'.txn ≠ r.txn → r' ∈ m.woken.erase r := fun r' hr' hne =>
      (List.mem_erase_of_ne fun heq => hne (congrArg LockRequest.txn heq)).mpr hr'
    have hused := fun c => m.uses_resumed (t := r.txn) (c := c) (m.db.resumeOne r).1
    have hidle := m.uses_resumed_none (t := r.txn) (m.db.resumeOne r).1
    generalize ho : Occurrence.resumed r.txn (m.db.resumeOne r).1 = o at hused hidle
    have hturn : m.turn? o = some r.txn := ho ▸ rfl
    have hkeeps : m.keeps? o = (m.db.calls.get? r.txn).bind Call.keeps? := ho ▸ rfl
    rw [resumeOne]
    cases hget : m.db.calls.get? r.txn with
    | none =>
      have htook : TookTurn wild True r.txn (m.keeps? o) [] m.db (some (.error .endless), m.db) :=
        .of_worked (.refl m.db) _ fun _ => hm.idle r.txn hget
      rw [← hidle hget] at htook
      have hprogressed : Progressed wild m o ⟨m.woken.erase r, m.db⟩ :=
        .of_turn hm hturn hget (fun _ _ => rfl) hwoken htook
      exact hprogressed
    | some c =>
      rw [hget] at hkeeps
      have hc := hm.calls r.txn c hget
      have htook : TookTurn wild True r.txn (m.keeps? o) (m.uses o)
          { m.db with calls := m.db.calls.erase r.txn }
          (run c { m.db with calls := m.db.calls.erase r.txn }) := by
        rw [hused c hget, hkeeps]
        exact took_runBounded _ hm.housed ⟨hc.txn, hc.fits, hc.keeps, hc.scans, hc.inHand⟩
      exact .of_turn hm hturn (SortedMap.get?_erase_self _ _)
        (fun u hne => SortedMap.get?_erase_of_ne _ (Ne.symm hne)) hwoken htook

/-! ## Runs -/

/-- A run in which nothing happens but what is allowed. -/
inductive AllowedRun (wild : Prop) (m : Moment) : List Occurrence → Moment → Prop
  | nil : AllowedRun wild m [] m
  | snoc {occurrences : List Occurrence} {m' m'' : Moment} {o : Occurrence}
      (h : AllowedRun wild m occurrences m') (hstep : Step m' o m'') (hallows : m'.Allows wild o) :
      AllowedRun wild m (occurrences ++ [o]) m''

theorem stable_create (capacity : Nat) (journal : Journal) {disk : Disk}
    (hdisk : wild ∨ disk.Mounted) :
    Moment.Stable wild ⟨[], Database.create capacity journal disk⟩ where
  housed := ⟨Buffer.framed_empty capacity, hdisk⟩
  calls _ _ hget := nomatch hget
  waits _ _ hget := nomatch hget
  idle _ _ := rfl
  locks := ⟨[], rfl⟩

namespace AllowedRun

variable {occurrences : List Occurrence}

theorem of_isTame (h : Run m occurrences m')
    (htame : ∀ c answer, .command c answer ∈ occurrences → c.IsTame) :
    AllowedRun wild m occurrences m' := by
  induction h with
  | nil => exact .nil
  | @snoc occurrences m₁ m₂ o h hstep ih =>
    have hlast : o ∈ occurrences ++ [o] := List.mem_append_right _ List.mem_cons_self
    refine (ih fun c answer hmem => htame c answer (List.mem_append_left _ hmem)).snoc hstep ?_
    cases o with
    | command c answer => exact Moment.allows_of_isTame (htame c answer hlast) m₁ answer
    | resumed t outcome => exact trivial

theorem of_performAll (wild : Prop) {commands : List Command} (d : Database)
    (htame : ∀ c ∈ commands, c.IsTame) :
    ∃ occurrences, AllowedRun wild ⟨[], d⟩ occurrences ⟨[], (performAll commands d).2⟩ := by
  obtain ⟨occurrences, hrun, hcommands⟩ := run_performAll commands d
  exact ⟨occurrences, .of_isTame hrun fun c answer hmem => htame c (hcommands c answer hmem)⟩

theorem stable (h : AllowedRun wild m occurrences m') (hm : m.Stable wild) : m'.Stable wild := by
  induction h with
  | nil => exact hm
  | snoc _ hstep hallows ih => exact (hstep.progressed ih hallows).stable

/-- All that was done to the pool, one deed after the other. -/
theorem course (h : AllowedRun wild m occurrences m') (hm : m.Stable wild) :
    ∃ ds, Pool.Course (Pool.Does wild fun _ _ => True) m.db.pool ds m'.db.pool := by
  induction h with
  | nil => exact ⟨[], .nil⟩
  | snoc hrun hstep hallows ih =>
    obtain ⟨ds, hcourse⟩ := ih
    obtain ⟨ds', hcourse', -⟩ :=
      (hstep.progressed (hrun.stable hm) hallows).pool.course fun _ _ _ => trivial
    exact ⟨ds ++ ds', hcourse.trans hcourse'⟩

end AllowedRun

end PagedHeap
