import PagedHeap.Proofs.Database.Custody
import PagedHeap.Proofs.Lock.Waking

/-!
# What steps leave in hand

In a run in which pages are changed by calls only, whoever waits is left alone by all steps but its
own turn: its call, its cursors and the page that it has in hand.
-/

namespace PagedHeap

open Database

/-- Pages are changed through the calls of transactions only, and no memory is lost. -/
def Command.IsPooled : Command → Prop
  | .edit _ _ => False
  | .implant _ _ => False
  | .resizeFile _ _ => False
  | .patchFile _ _ _ => False
  | .reopen _ => False
  | _ => True

def PooledRun (occurrences : List Occurrence) : Prop :=
  ∀ c answer, .command c answer ∈ occurrences → c.IsPooled

/-- What is left to a transaction that waits. -/
structure Database.Leaves (u : TxnId) (d d' : Database) : Prop where
  call : d'.calls.get? u = d.calls.get? u
  cursors : ∀ id cursor, d.cursors.get? id = some cursor → cursor.txn = u →
    ∃ cursor', d'.cursors.get? id = some cursor' ∧ cursor'.txn = u
  hands : ∀ f, d.InHand u f → d'.InHand u f ∧ Pool.Unchanged f d.pool d'.pool

structure Moment.Kempt (m : Moment) : Prop where
  sound : LockTable.Sound m.woken m.db.locks
  rooted : m.db.pool.Rooted
  calls : ∀ r ∈ m.woken ++ m.db.locks.sleepers, ∃ c, m.Waits c ∧ c.request = r ∧ c.Apt m.db

/-- What holds after a step, and who still waits. -/
structure Moment.Honors (m : Moment) (o : Occurrence) (m' : Moment) : Prop where
  kempt : m'.Kempt
  pages_le : ∀ table, m.db.pool.disk.pages table ≤ m'.db.pool.disk.pages table
  waits : ∀ c, m.Waits c → (∀ outcome, o ≠ .resumed c.txn outcome) →
    m'.Waits c ∧ m.db.Leaves c.txn m'.db

variable {t u : TxnId} {d d' d'' : Database} {c command : Command} {call : Call} {f : FrameId}
  {m m' : Moment} {o : Occurrence} {occurrences : List Occurrence} {woken : List LockRequest}
  {outcome : Option Outcome} {answer : Answer} {p : Pool} {table : TableId}

namespace Database

theorem Leaves.refl (u : TxnId) (d : Database) : Leaves u d d :=
  ⟨rfl, fun _ cursor hget htxn => ⟨cursor, hget, htxn⟩, fun _ hf => ⟨hf, rfl, rfl⟩⟩

theorem Leaves.trans (h : Leaves u d d') (h' : Leaves u d' d'') : Leaves u d d'' where
  call := h'.call.trans h.call
  cursors id cursor hget htxn := by
    obtain ⟨cursor', hget', htxn'⟩ := h.cursors id cursor hget htxn
    exact h'.cursors id cursor' hget' htxn'
  hands f hf := by
    obtain ⟨hf', hsame⟩ := h.hands f hf
    obtain ⟨hf'', hsame'⟩ := h'.hands f hf'
    exact ⟨hf'', hsame.trans hsame'⟩

/-- The turn of another transaction changes no pages but its own. -/
theorem Turned.leaves (h : Turned t d d') (hd : d.pool.Rooted)
    (hl : ∀ id, (d'.locks.grantOf id).WellFormed) (hne : u ≠ t) : Leaves u d d' where
  call := h.calls u hne
  cursors id cursor hget htxn := by
    obtain ⟨cursor', hget', halike⟩ := h.cursors id cursor hget
    exact ⟨cursor', hget', halike.txn.trans htxn⟩
  hands f hf := hf.after hd h.pool
    (fun id howns hmine => hne ((hl id).eq_of_owns hmine (h.owns id u howns).1))
    fun id => h.owns id u

end Database

theorem Call.Apt.leaves (h : call.Apt d) (hleaves : d.Leaves call.txn d') : call.Apt d' :=
  h.mono (fun f hf => (hleaves.hands f hf).1) hleaves.cursors

namespace Moment.Kempt

/-- Whoever waits after a step waited before and is left alone, or its call is apt. -/
theorem honors (hm : m.Kempt) (hsound : LockTable.Sound m'.woken m'.db.locks)
    (hrooted : m'.db.pool.Rooted)
    (hpages : ∀ table, m.db.pool.disk.pages table ≤ m'.db.pool.disk.pages table)
    (hstays : ∀ c, m.Waits c → (∀ outcome, o ≠ .resumed c.txn outcome) →
      c.request ∈ m'.woken ++ m'.db.locks.sleepers ∧ m.db.Leaves c.txn m'.db)
    (hwaits : ∀ r ∈ m'.woken ++ m'.db.locks.sleepers,
      r ∈ m.woken ++ m.db.locks.sleepers ∧ (∀ outcome, o ≠ .resumed r.txn outcome) ∨
        ∃ c, m'.Waits c ∧ c.request = r ∧ c.Apt m'.db) : m.Honors o m' := by
  have hold : ∀ c, m.Waits c → (∀ outcome, o ≠ .resumed c.txn outcome) →
      m'.Waits c ∧ m.db.Leaves c.txn m'.db := by
    intro c hc hother
    obtain ⟨hrequest, hleaves⟩ := hstays c hc hother
    exact ⟨⟨hrequest, hleaves.call.trans hc.call⟩, hleaves⟩
  refine ⟨⟨hsound, hrooted, fun r hr => ?_⟩, hpages, hold⟩
  rcases hwaits r hr with ⟨hr', hother⟩ | hnew
  · obtain ⟨c, hc, rfl, hapt⟩ := hm.calls r hr'
    obtain ⟨hc', hleaves⟩ := hold c hc hother
    exact ⟨c, hc', rfl, hapt.leaves hleaves⟩
  · exact hnew

/-! ## Commands that begin no call -/

/-- Pages are fetched, discarded or written back. -/
theorem honors_pool (hm : m.Kempt) (hpool : Pool.Respects (fun _ => False) m.db.pool p) :
    m.Honors (.command command answer) ⟨m.woken, m.db.withPool p⟩ := by
  refine hm.honors hm.sound (hpool.rooted hm.rooted) hpool.pages_le (fun c hc _ => ?_)
    fun r hr => Or.inl ⟨hr, fun _ h => by cases h⟩
  exact ⟨hc.request, rfl, fun _ cursor hget htxn => ⟨cursor, hget, htxn⟩,
    fun f hf => hf.onPool hm.rooted hpool⟩

theorem honors_refl (hm : m.Kempt) : m.Honors (.command command answer) m :=
  hm.honors_pool (.refl m.db.pool)

/-- Changes of cursors whose calls do not wait. -/
theorem honors_cursors (hm : m.Kempt) {cursors : SortedMap CursorId Cursor}
    (hkept : ∀ id cursor, m.db.cursors.get? id = some cursor →
      (∃ r ∈ m.woken ++ m.db.locks.sleepers, r.txn = cursor.txn) →
        cursors.get? id = some cursor) :
    m.Honors (.command command answer) ⟨m.woken, { m.db with cursors }⟩ := by
  refine hm.honors hm.sound hm.rooted (fun _ => Nat.le_refl _) (fun c hc _ => ?_)
    fun r hr => Or.inl ⟨hr, fun _ h => by cases h⟩
  refine ⟨hc.request, rfl, fun id cursor hget htxn => ⟨cursor, ?_, htxn⟩,
    fun _ hf => ⟨⟨hf.safe, hf.owned⟩, rfl, rfl⟩⟩
  exact hkept id cursor hget ⟨c.request, hc.request, htxn.symm⟩

theorem honors_setCursor (hm : m.Kempt) {id : CursorId} (cursor : Cursor)
    (hfree : ∀ old, m.db.cursors.get? id = some old →
      ∀ r ∈ m.woken ++ m.db.locks.sleepers, r.txn ≠ old.txn) :
    m.Honors (.command command answer) ⟨m.woken, m.db.setCursor id cursor⟩ :=
  hm.honors_cursors fun _ _ => Consistent.cursor_kept cursor hfree

theorem honors_updateCursor (hm : m.Kempt) {id : CursorId} (f : Cursor → Cursor)
    (hfree : ∀ old, m.db.cursors.get? id = some old →
      ∀ r ∈ m.woken ++ m.db.locks.sleepers, r.txn ≠ old.txn) :
    m.Honors (.command command answer) ⟨m.woken, m.db.updateCursor id f⟩ := by
  rw [updateCursor]
  split
  case h_1 => exact hm.honors_setCursor _ hfree
  case h_2 => exact hm.honors_refl

theorem honors_atOnce (hm : m.Kempt) {act : Act Pool Unit}
    (h : Pool.Respects (fun _ => False) m.db.pool (act.on m.db.pool).2) :
    m.Honors (.command command answer) ⟨m.woken, (m.db.atOnce act).2⟩ := by
  have hhonors : m.Honors (.command command answer) _ := hm.honors_pool h
  rw [atOnce, on_onPool]
  generalize act.on m.db.pool = x at hhonors ⊢
  rcases x with ⟨fault | result, p⟩
  · exact hhonors
  · exact hhonors

/-- Stores are changed, but not their files. -/
theorem honors_update (hm : m.Kempt) (table : TableId) {f : Store → Store}
    (hf : ∀ s, (f s).content = s.content) :
    m.Honors (.command command answer) ⟨m.woken, m.db.updateStore table f⟩ :=
  hm.honors_pool (Pool.respects_of_disk rfl (Disk.sameContents_update _ table hf).keeps)

/-- A page is read past the pool. -/
theorem honors_inspect (hm : m.Kempt) (table : TableId) (page : PageId) :
    m.Honors (.command command answer) ⟨m.woken, (m.db.inspect table page).2⟩ := by
  rw [inspect, (answer_call m.db _).2, start]
  simp only [on_onPool, Act.on_bind, Act.on_get]
  cases hs : m.db.pool.disk.store? table with
  | none => exact hm.honors_refl
  | some store =>
    simp only [Act.on_bind, Act.on_ofResult]
    cases hread : store.read page with
    | error e => exact hm.honors_refl
    | ok found =>
      have hsame := (Disk.SameFiles.put hs (Disk.file_read hread)).sameContents
      exact hm.honors_pool (Pool.respects_of_disk rfl hsame.keeps)

/-! ## Turns -/

/-- The transaction whose turn it is does not wait meanwhile. -/
theorem honors_turn (hm : m.Kempt)
    (hrest : ∀ r ∈ woken ++ m.db.locks.sleepers, r ∈ m.woken ++ m.db.locks.sleepers ∧ r.txn ≠ t)
    (hothers : ∀ r ∈ m.woken ++ m.db.locks.sleepers, (∀ outcome, o ≠ .resumed r.txn outcome) →
      r ∈ woken ++ m.db.locks.sleepers)
    (hturn : ∀ u, u ≠ t → ∀ outcome, o ≠ .resumed u outcome)
    (h : TurnsTo t woken m.db outcome d') : m.Honors o ⟨woken, d'⟩ := by
  refine hm.honors h.sound (h.turned.pool.rooted hm.rooted) h.turned.pool.pages_le
    (fun c hc hother => ?_) fun r hr => ?_
  · have hr := hothers c.request hc.request hother
    refine ⟨?_, h.turned.leaves hm.rooted h.sound.wellFormed (hrest c.request hr).2⟩
    cases outcome with
    | some outcome =>
      rw [h.ended fun h => by cases h]
      exact hr
    | none =>
      obtain ⟨c', hsleepers, -⟩ := h.asleep rfl
      rw [hsleepers, ← List.append_assoc]
      exact List.mem_append_left _ hr
  · have hold : r ∈ woken ++ m.db.locks.sleepers →
        r ∈ m.woken ++ m.db.locks.sleepers ∧ ∀ outcome, o ≠ .resumed r.txn outcome :=
      fun hr => ⟨(hrest r hr).1, hturn r.txn (hrest r hr).2⟩
    cases outcome with
    | some outcome =>
      rw [h.ended fun h => by cases h] at hr
      exact Or.inl (hold hr)
    | none =>
      obtain ⟨c, hsleepers, rfl, hget, hapt⟩ := h.asleep rfl
      rw [hsleepers, ← List.append_assoc] at hr
      rcases List.mem_append.mp hr with hr | hr
      · exact Or.inl (hold hr)
      · obtain rfl := List.mem_singleton.mp hr
        refine Or.inr ⟨c, ⟨?_, hget⟩, rfl, hapt⟩
        rw [hsleepers]
        exact List.mem_append_right _ (List.mem_append_right _ List.mem_cons_self)

/-- A call that a command begins. -/
theorem honors_call (hm : m.Kempt) (hawake : ∀ r ∈ m.woken ++ m.db.locks.sleepers, r.txn ≠ t)
    {act : Act Database Progress} (h : Acts t (Progress.Apt t) m.db act) :
    m.Honors (.command command answer) ⟨m.woken, (m.db.call act).2⟩ := by
  rw [(answer_call m.db act).2]
  exact hm.honors_turn (fun r hr => ⟨hr, hawake r hr⟩) (fun r hr _ => hr)
    (fun _ _ _ h => by cases h) (.start hm.sound hm.rooted hawake h)

theorem honors_scan (hm : m.Kempt) (id : CursorId) (harvest : Harvest)
    (hfree : ∀ old, m.db.cursors.get? id = some old →
      ∀ r ∈ m.woken ++ m.db.locks.sleepers, r.txn ≠ old.txn) :
    m.Honors (.command command answer) ⟨m.woken, (m.db.scan id harvest).2⟩ := by
  rw [scan]
  split
  case h_1 cursor hget =>
    exact hm.honors_call (hfree cursor hget) (acts_scanFrom hget (.refl cursor) harvest)
  case h_2 =>
    have hsame : (m.db.call do
        return .finished (← Act.ofResult (harvested harvest none))).2 = m.db := by
      rw [(answer_call m.db _).2, start]
      simp only [Act.on_bind, Act.on_ofResult]
      cases harvested harvest none <;> rfl
    rw [hsame]
    exact hm.honors_refl

/-- The call that is woken goes on. -/
theorem poised (hm : m.Kempt) {r : LockRequest} (hr : r ∈ m.woken) :
    ∃ c : Call, c.request = r ∧ m.Waits c ∧
      c.Poised (m.woken.erase r) { m.db with calls := m.db.calls.erase c.txn } ∧
      m.db.resumeOne r = run c { m.db with calls := m.db.calls.erase c.txn } := by
  obtain ⟨c, hc, rfl, hapt⟩ := hm.calls r (List.mem_append_left _ hr)
  refine ⟨c, rfl, hc, ⟨hm.sound.perm (List.perm_cons_erase hr).symm, hm.rooted,
    hapt.congr rfl rfl fun _ h => h⟩, ?_⟩
  have hcall : m.db.calls.get? c.request.txn = some c := hc.call
  rw [resumeOne, hcall]
  rfl

theorem honors_resume (hm : m.Kempt) {r : LockRequest} (hr : r ∈ m.woken) :
    m.Honors (.resumed r.txn (m.db.resumeOne r).1) ⟨m.woken.erase r, (m.db.resumeOne r).2⟩ := by
  obtain ⟨c, rfl, hc, hpoised, hresume⟩ := hm.poised hr
  have htaken : m.db.Turned c.txn { m.db with calls := m.db.calls.erase c.txn } :=
    ⟨fun _ _ h => h, fun u hne => SortedMap.get?_erase_of_ne m.db.calls (Ne.symm hne),
      CursorsKept.refl m.db, .refl m.db.pool⟩
  rw [hresume]
  refine hm.honors_turn (t := c.txn) (fun r hr' => ⟨?_, hpoised.sound.txn_ne r hr'⟩)
    (fun r hr' hother => ?_) (fun u hne outcome heq => ?_) (.after htaken rfl (.run hpoised))
  · exact (List.erase_sublist.append_right m.db.locks.sleepers).mem hr'
  · have hne : r ≠ c.request := fun heq => hother _ (by rw [heq])
    refine List.mem_append.mpr ((List.mem_append.mp hr').imp_left fun hwoken => ?_)
    exact (List.mem_erase_of_ne hne).mpr hwoken
  · exact hne (Occurrence.resumed.inj heq).1.symm

/-! ## Locks that are released -/

theorem honors_released (hm : m.Kempt)
    (hawake : ∀ r ∈ m.woken ++ m.db.locks.sleepers, r.txn ≠ t)
    (hpool : Pool.Respects (fun _ => False) m.db.pool p) {freed : List LockRequest}
    {locks : LockTable} (hsound : LockTable.Sound (m.woken ++ freed) locks)
    (hmem : ∀ r, r ∈ freed ∨ r ∈ locks.sleepers ↔ r ∈ m.db.locks.sleepers)
    (howns : ∀ id u, u ≠ t → m.db.owns id u → (locks.grantOf id).Owns u) :
    m.Honors (.command command answer) ⟨m.woken ++ freed, { m.db.withPool p with locks }⟩ := by
  refine hm.honors hsound (hpool.rooted hm.rooted) hpool.pages_le (fun c hc _ => ?_)
    fun r hr => Or.inl ⟨LockTable.mem_of_released hmem hr, fun _ h => by cases h⟩
  have hne : c.txn ≠ t := hawake c.request hc.request
  refine ⟨?_, rfl, fun _ cursor hget htxn => ⟨cursor, hget, htxn⟩, fun f hf =>
    hf.after hm.rooted hpool (fun _ _ h => h) fun id => howns id c.txn hne⟩
  have hrequest := hc.request
  rw [List.mem_append, ← hmem, ← or_assoc, ← List.mem_append, ← List.mem_append] at hrequest
  exact hrequest

theorem honors_letOff (hm : m.Kempt)
    (hfree : ({ m.db.locks with sleepers := m.woken ++ m.db.locks.sleepers } : LockTable).isAsleep t
      = false) (hpool : Pool.Respects (fun _ => False) m.db.pool p) :
    m.Honors (.command command answer) (Moment.letOff ⟨m.woken, m.db.withPool p⟩ t) :=
  hm.honors_released (LockTable.isAsleep_eq_false.mp hfree) hpool
    (hm.sound.releaseAll (Moment.not_asleep hfree)) (fun _ => LockTable.mem_releaseAll m.db.locks t)
    fun _ _ hne howns => LockTable.owns_releaseAll hm.sound hne howns

/-! ## Steps and runs -/

theorem honors_carryOut (hm : m.Kempt) (hpooled : c.IsPooled) (hfree : m.isBusy c = false)
    (hplain : c.releases = false) :
    m.Honors (.command c answer) ⟨m.woken, (m.db.carryOut c).2⟩ := by
  cases c with
  | fetch t page mode keep =>
    exact hm.honors_call (LockTable.isAsleep_eq_false.mp hfree)
      (.of_pure (Progress.apt_wants (.of_fetch rfl)))
  | insert t table row route =>
    exact hm.honors_call (LockTable.isAsleep_eq_false.mp hfree)
      (acts_beginInsert m.db t table row route)
  | delete t table rid route =>
    exact hm.honors_call (LockTable.isAsleep_eq_false.mp hfree)
      (acts_beginDelete m.db t table rid route)
  | commit t => cases hplain
  | abort t => cases hplain
  | release t page => cases hplain
  | flushAll => exact hm.honors_atOnce (Pool.respects_flushAll m.db.pool)
  | flushPage page => exact hm.honors_atOnce (Pool.respects_flushPage page m.db.pool)
  | flushOwned t => exact hm.honors_atOnce (Pool.respects_flushOwned t _ m.db.pool)
  | discard page => exact hm.honors_pool (Pool.respects_discard m.db.pool page)
  | openCursor id t table =>
    exact hm.honors_setCursor _ (Moment.awake_of_rests (Bool.or_eq_false_iff.mp hfree).2)
  | rewindCursor id => exact hm.honors_updateCursor _ (Moment.awake_of_rests hfree)
  | closeCursor id => exact hm.honors_updateCursor _ (Moment.awake_of_rests hfree)
  | next id => exact hm.honors_scan id .next (Moment.awake_of_rests hfree)
  | rest id => exact hm.honors_scan id (.rest []) (Moment.awake_of_rests hfree)
  | dropHandle handle => exact hm.honors_pool (Pool.respects_holders m.db.pool _)
  | inspect table page => exact hm.honors_inspect table page
  | setFaults table faults => exact hm.honors_update table fun _ => rfl
  | setDetours table detours => exact hm.honors_update table fun _ => rfl
  | setVerdicts verdicts => exact hm.honors_pool (Pool.respects_withJournal m.db.pool _)
  | addTable table =>
    exact hm.honors_pool (Pool.respects_of_disk rfl (Disk.keeps_addTable m.db.pool.disk table))
  | removeTable table =>
    have hsame : Disk.SameContents m.db.pool.disk (m.db.pool.disk.removeTable table) :=
      fun _ => rfl
    exact hm.honors_pool (Pool.respects_of_disk rfl hsame.keeps)
  | _ => cases hpooled

end Moment.Kempt

theorem Step.honors (h : Step m o m') (hm : m.Kempt)
    (hpooled : ∀ c answer, o = .command c answer → c.IsPooled) : m.Honors o m' := by
  have hsettled : ∀ t, Pool.Respects (fun _ => False) m.db.pool
      ((Pool.settle t (m.db.locks.heldPages t)).on m.db.pool).2 :=
    fun t => Pool.respects_settle t _ m.db.pool
  cases h with
  | busy c _ => exact hm.honors_refl
  | plain c hfree hplain => exact hm.honors_carryOut (hpooled c _ rfl) hfree hplain
  | commit t result d hfree hsettle =>
    obtain ⟨-, rfl⟩ := Prod.mk.inj ((on_onPool _ _).symm.trans hsettle)
    exact hm.honors_letOff hfree (hsettled t)
  | commitFault t fault d hfree hsettle =>
    obtain ⟨-, rfl⟩ := Prod.mk.inj ((on_onPool _ _).symm.trans hsettle)
    exact hm.honors_pool (hsettled t)
  | abort t hfree => exact hm.honors_letOff hfree (Pool.respects_forget m.db.pool _)
  | release t page hfree =>
    exact hm.honors_released (p := m.db.pool) (LockTable.isAsleep_eq_false.mp hfree) (.refl _)
      (hm.sound.release t page) (fun _ => LockTable.mem_release m.db.locks t page)
      fun id _ hne => (LockTable.owns_release hne id).mpr
  | resume r hr => exact hm.honors_resume hr

namespace Moment

theorem kempt_create (capacity : Nat) (journal : Journal) {disk : Disk} (hdisk : disk.Placed) :
    Kempt ⟨[], Database.create capacity journal disk⟩ where
  sound := LockTable.sound_empty
  rooted := ⟨Buffer.framed_empty capacity, Buffer.listed_empty capacity, hdisk,
    fun _ _ h => by cases h⟩
  calls r hr := absurd hr List.not_mem_nil

end Moment

/-- Whoever waits all through a run is left alone. -/
theorem Run.honors (h : Run m occurrences m') (hm : m.Kempt) (hpooled : PooledRun occurrences) :
    m'.Kempt ∧ (∀ table, m.db.pool.disk.pages table ≤ m'.db.pool.disk.pages table) ∧
      ∀ c, m.Waits c → (∀ outcome, .resumed c.txn outcome ∉ occurrences) →
        m'.Waits c ∧ m.db.Leaves c.txn m'.db := by
  induction h with
  | nil => exact ⟨hm, fun _ => Nat.le_refl _, fun c hc _ => ⟨hc, .refl c.txn m.db⟩⟩
  | @snoc occurrences m₁ m₂ o _ hlast ih =>
    obtain ⟨hm₁, hpages, hwaits⟩ :=
      ih fun c answer hmem => hpooled c answer (List.mem_append_left _ hmem)
    have hstep := hlast.honors hm₁ fun c answer heq =>
      hpooled c answer (List.mem_append_right _ (List.mem_singleton.mpr heq.symm))
    refine ⟨hstep.kempt, fun table => Nat.le_trans (hpages table) (hstep.pages_le table),
      fun c hc hrests => ?_⟩
    obtain ⟨hc₁, hleaves⟩ :=
      hwaits c hc fun outcome hmem => hrests outcome (List.mem_append_left _ hmem)
    obtain ⟨hc₂, hleaves'⟩ := hstep.waits c hc₁ fun outcome heq =>
      hrests outcome (List.mem_append_right _ (List.mem_singleton.mpr heq.symm))
    exact ⟨hc₂, hleaves.trans hleaves'⟩

end PagedHeap
